import Mathlib.Data.List.TakeWhile
import ChunkedUpload.Config.JsonText
import ChunkedUpload.Proofs.Part.Names

/-!
# What is written is read as tokens

`Lexes written tokens` says that a text is read as these tokens wherever a word may end behind it,
which is where the text ends or a mark follows. Quoted texts (`lexes_quote`), the three words and
whole numbers of 64 bits (`lexes_toString`) are one token each. Texts that marks hold apart are read
one after another (`Lexes.append_mark`).
-/

namespace ChunkedUpload

theorem Percent.hexValue?_digitChar : ∀ n < 16, hexValue? (Nat.digitChar n) = some n := by decide

namespace Config

/-! ## Numerals -/

namespace JsonNumber

theorem isWhole_repr (n : Nat) : isWhole n.repr.toList = true := by
  rcases Nat.eq_zero_or_pos n with rfl | hn
  · decide
  · have hdigits : n.repr.toList.all Char.isDigit = true :=
      List.all_eq_true.2 fun c hc => Decimal.isDigit_of_mem_repr hc
    rw [Nat.toList_repr] at *
    simp [isWhole, Decimal.head?_toDigits hn, Nat.toDigits_ne_nil, hdigits]

/-- Digits behind what may be a minus are a numeral without fraction and exponent. -/
theorem numeral?_of_isWhole {cs digits : List Char} {negative : Bool}
    (hminus : takeMinus cs = (negative, digits)) (hwhole : isWhole digits = true) :
    numeral? cs = some ⟨negative, digits, none, none⟩ := by
  have hdigits : ∀ c ∈ digits, c.isDigit = true := by
    simp only [isWhole, Bool.and_eq_true, List.all_eq_true] at hwhole
    exact hwhole.1.1
  have htake : digits.takeWhile Char.isDigit = digits := List.takeWhile_eq_self_iff.2 hdigits
  have hdrop : digits.dropWhile Char.isDigit = [] := List.dropWhile_eq_nil_iff.2 hdigits
  simp only [numeral?, hminus, htake, hdrop]
  exact if_pos hwhole

theorem takeMinus_repr (n : Nat) : takeMinus n.repr.toList = (false, n.repr.toList) := by
  unfold takeMinus
  split
  case h_1 rest hrepr =>
    exact absurd (Decimal.isDigit_of_mem_repr (hrepr ▸ List.mem_cons_self)) (by decide)
  case h_2 => rfl

/-- How a negative number is written. -/
theorem toList_toString_neg (n : Nat) :
    (toString (Int.negSucc n)).toList = '-' :: (n + 1).repr.toList := by
  have hwritten : toString (Int.negSucc n) = "-" ++ (n + 1).repr := rfl
  rw [hwritten, String.toList_append]
  rfl

/-- A whole number of 64 bits is read as it is written. -/
theorem value?_toString {n : Int} (hleast : -0x8000000000000000 ≤ n)
    (hmost : n < 0x10000000000000000) : value? (toString n).toList = some (.whole n) := by
  cases n with
  | ofNat n =>
    have hwritten : (toString (Int.ofNat n)).toList = n.repr.toList := rfl
    have hless : n < 0x10000000000000000 := Int.ofNat_lt.1 hmost
    rw [hwritten, value?, numeral?_of_isWhole (takeMinus_repr n) (isWhole_repr n)]
    simp [Numeral.value, hless]
  | negSucc n =>
    have hless : ¬ 0x8000000000000000 < n + 1 := by omega
    have hminus : takeMinus ('-' :: (n + 1).repr.toList) = (true, (n + 1).repr.toList) := rfl
    rw [toList_toString_neg, value?, numeral?_of_isWhole hminus (isWhole_repr (n + 1))]
    simp [Numeral.value, hless, Int.negSucc_eq]

end JsonNumber

namespace JsonToken

/-! ## Quoted texts -/

/-- The piece that a character between quotation marks is read as. -/
def pieceOf (c : Char) : Piece :=
  if (Escape.letter? c).isSome ∨ 0x20 ≤ c.toNat then .char c else .code c.toNat

/-- A control is no half of a character, so it stands for itself whatever follows. -/
theorem characters?_code {n : Nat} (h : n < 0x20) (pieces : List Piece) :
    characters? (.code n :: pieces) = (characters? pieces).map (Char.ofNat n :: ·) := by
  have hhigh : isHigh n = false := by
    simp [isHigh]
    omega
  have hlow : isLow n = false := by
    simp [isLow]
    omega
  rcases pieces with _ | ⟨_ | low, pieces⟩
  case nil => simp [characters?, hhigh, hlow]
  case cons.char => simp [characters?, hhigh, hlow]
  case cons.code => simp [characters?, hhigh, hlow]

theorem characters?_pieces (cs : List Char) : characters? (cs.map pieceOf) = some cs := by
  induction cs with
  | nil => rfl
  | cons c cs ih =>
    rw [List.map_cons, pieceOf]
    split
    · rw [characters?, ih]
      rfl
    · rename_i hcode
      rw [characters?_code (by omega), ih, Option.map_some, Char.ofNat_toNat]

namespace Lexer

/-- The tokens of a text that goes on like this. -/
def run? (s : Lexer) (cs : List Char) : Option (List JsonToken) := do
  (← cs.foldlM step s).finish?

theorem run?_cons (s : Lexer) (c : Char) (cs : List Char) :
    run? s (c :: cs) = (s.step c).bind (run? · cs) := by
  rw [run?, List.foldlM_cons]
  cases s.step c <;> rfl

theorem run?_of_step {s t : Lexer} {c : Char} (h : s.step c = some t) (cs : List Char) :
    run? s (c :: cs) = run? t cs := by
  rw [run?_cons, h, Option.bind_some]

variable {tokens : List JsonToken} {rest : List Char}

theorem run?_letter {c letter : Char} (h : Escape.letter? c = some letter) (sofar : List Piece) :
    run? ⟨tokens, .quoted sofar⟩ ('\\' :: letter :: rest) =
      run? ⟨tokens, .quoted (.char c :: sofar)⟩ rest := by
  have hread := Escape.letter?_eq_some_iff.1 h
  have hcode : letter ≠ 'u' := by
    rintro rfl
    cases hread
  have hslash : letter ≠ '/' := by
    rintro rfl
    cases hread
  have hescaped : escaped? letter = some c := by
    rw [escaped?, if_neg hslash, hread]
  have hstep : step ⟨tokens, .escape sofar⟩ letter =
      some ⟨tokens, .quoted (.char c :: sofar)⟩ := by
    simp [step, hcode, hescaped]
  have hbackslash : step ⟨tokens, .quoted sofar⟩ '\\' = some ⟨tokens, .escape sofar⟩ := rfl
  rw [run?_of_step hbackslash, run?_of_step hstep]

theorem run?_plain {c : Char} (h : Escape.letter? c = none) (hshown : 0x20 ≤ c.toNat)
    (sofar : List Piece) :
    run? ⟨tokens, .quoted sofar⟩ (c :: rest) = run? ⟨tokens, .quoted (.char c :: sofar)⟩ rest := by
  have hquote : c ≠ '"' := by
    rintro rfl
    cases h
  have hslash : c ≠ '\\' := by
    rintro rfl
    cases h
  have hstep : step ⟨tokens, .quoted sofar⟩ c = some ⟨tokens, .quoted (.char c :: sofar)⟩ := by
    simp [step, hquote, hslash, Nat.not_lt.2 hshown]
  exact run?_of_step hstep rest

/-- A control without a letter is written as the digits of its code. -/
theorem run?_code {n : Nat} (h : n < 0x20) (sofar : List Piece) :
    run? ⟨tokens, .quoted sofar⟩
        ('\\' :: 'u' :: '0' :: '0' :: Nat.digitChar (n / 16) :: Nat.digitChar (n % 16) :: rest) =
      run? ⟨tokens, .quoted (.code n :: sofar)⟩ rest := by
  have hcode : n / 16 * 16 + n % 16 = n := by omega
  have hhigh : step ⟨tokens, .hex sofar 0 2⟩ (Nat.digitChar (n / 16)) =
      some ⟨tokens, .hex sofar (n / 16) 3⟩ := by
    simp [step, Percent.hexValue?_digitChar (n / 16) (by omega)]
  have hlow : step ⟨tokens, .hex sofar (n / 16) 3⟩ (Nat.digitChar (n % 16)) =
      some ⟨tokens, .quoted (.code n :: sofar)⟩ := by
    simp [step, Percent.hexValue?_digitChar (n % 16) (by omega), hcode]
  have hstart : run? ⟨tokens, .quoted sofar⟩ ('\\' :: 'u' :: '0' :: '0' ::
        Nat.digitChar (n / 16) :: Nat.digitChar (n % 16) :: rest) =
      run? ⟨tokens, .hex sofar 0 2⟩
        (Nat.digitChar (n / 16) :: Nat.digitChar (n % 16) :: rest) := rfl
  rw [hstart, run?_of_step hhigh, run?_of_step hlow]

/-- A character is read as its piece, however it is written. -/
theorem run?_escape (sofar : List Piece) (c : Char) :
    run? ⟨tokens, .quoted sofar⟩ (JsonText.escape c ++ rest) =
      run? ⟨tokens, .quoted (pieceOf c :: sofar)⟩ rest := by
  unfold JsonText.escape pieceOf
  cases hletter : Escape.letter? c with
  | some letter => exact run?_letter hletter sofar
  | none =>
    by_cases hshown : 0x20 ≤ c.toNat
    case pos => simpa [hshown] using run?_plain hletter hshown sofar
    case neg => simpa [hshown] using run?_code (Nat.lt_of_not_le hshown) sofar

theorem run?_escaped (cs : List Char) (sofar : List Piece) :
    run? ⟨tokens, .quoted sofar⟩ (cs.flatMap JsonText.escape ++ rest) =
      run? ⟨tokens, .quoted ((cs.map pieceOf).reverse ++ sofar)⟩ rest := by
  induction cs generalizing sofar with
  | nil => rfl
  | cons c cs ih =>
    rw [List.flatMap_cons, List.append_assoc, run?_escape, ih, List.map_cons, List.reverse_cons,
      List.append_assoc, List.singleton_append]

theorem run?_quote (s : String) :
    run? ⟨tokens, .between⟩ (JsonText.quote s ++ rest) =
      run? ⟨.text (some s) :: tokens, .between⟩ rest := by
  have hvalue : (characters? (((s.toList.map pieceOf).reverse ++ []).reverse)).map String.ofList =
      some s := by
    rw [List.append_nil, List.reverse_reverse, characters?_pieces, Option.map_some,
      String.ofList_toList]
  have hopened : step ⟨tokens, .between⟩ '"' = some ⟨tokens, .quoted []⟩ := rfl
  have hclosed : step ⟨tokens, .quoted ((s.toList.map pieceOf).reverse ++ [])⟩ '"' =
      some ⟨.text (some s) :: tokens, .between⟩ := by
    rw [← hvalue]
    rfl
  rw [JsonText.quote, List.append_assoc, List.cons_append, run?_of_step hopened, run?_escaped,
    List.singleton_append, run?_of_step hclosed]

/-! ## Words -/

/-- A text that ends, or goes on with a mark. -/
def EndsWord : List Char → Prop
  | [] => True
  | c :: _ => (ofMark? c).isSome = true

/-- Whether a word goes on with a character. -/
def isInner (c : Char) : Bool := !(isBlank c || c = '"' || (ofMark? c).isSome)

/-- A word is read up to where it ends. -/
theorem run?_word {word : List Char} (hword : ∀ c ∈ word, isInner c = true) (hends : EndsWord rest)
    (sofar : List Char) :
    run? ⟨tokens, .word sofar⟩ (word ++ rest) =
      (endWord? tokens (word.reverse ++ sofar)).bind
        fun tokens => run? ⟨tokens, .between⟩ rest := by
  induction word generalizing sofar with
  | nil =>
    cases rest with
    | nil =>
      show (endWord? tokens sofar).map List.reverse = _
      rw [Option.map_eq_bind]
      rfl
    | cons c rest =>
      have hmark : (ofMark? c).isSome = true := hends
      have hstep : step ⟨tokens, .word sofar⟩ c = (endWord? tokens sofar).map (fresh · c) := by
        simp [step, hmark]
      rw [List.nil_append, run?_cons, hstep, Option.bind_map]
      rfl
  | cons c word ih =>
    obtain ⟨hc, hword⟩ := List.forall_mem_cons.1 hword
    have hstep : step ⟨tokens, .word sofar⟩ c = some ⟨tokens, .word (c :: sofar)⟩ := by
      simp only [isInner, Bool.not_eq_true'] at hc
      simp [step, hc]
    rw [List.cons_append, run?_of_step hstep, ih hword, List.reverse_cons, List.append_assoc,
      List.singleton_append]

/-! ## Texts that are read as tokens -/

/-- The text is read as these tokens wherever a word may end behind it. -/
def Lexes (written : List Char) (found : List JsonToken) : Prop :=
  ∀ tokens rest, EndsWord rest →
    run? ⟨tokens, .between⟩ (written ++ rest) = run? ⟨found.reverse ++ tokens, .between⟩ rest

theorem lexes_nil : Lexes [] [] := fun _ _ _ => rfl

theorem lexes_quote (s : String) : Lexes (JsonText.quote s) [.text (some s)] :=
  fun _ _ _ => run?_quote s

theorem lexes_word {word : List Char} {token : JsonToken} (hword : ∀ c ∈ word, isInner c = true)
    (htoken : ofWord? word = some token) : Lexes word [token] := by
  intro tokens rest hends
  cases word with
  | nil => cases htoken
  | cons c word =>
    obtain ⟨hc, hword⟩ := List.forall_mem_cons.1 hword
    have hstep : step ⟨tokens, .between⟩ c = some ⟨tokens, .word [c]⟩ := by
      simp only [isInner, Bool.not_eq_true', Bool.or_eq_false_iff, decide_eq_false_iff_not,
        Option.isSome_eq_false_iff, Option.isNone_iff_eq_none] at hc
      simp [step, fresh, hc]
    have hended : endWord? tokens (word.reverse ++ [c]) = some (token :: tokens) := by
      rw [endWord?, List.reverse_append, List.reverse_reverse, List.reverse_singleton,
        List.singleton_append, htoken, Option.map_some]
    rw [List.cons_append, run?_of_step hstep, run?_word hword hends, hended]
    rfl

theorem isInner_of_isDigit {c : Char} (h : c.isDigit = true) : isInner c = true := by
  have hother : ∀ d : Char, d.isDigit = false → c ≠ d := by
    rintro d hd rfl
    rw [h] at hd
    cases hd
  have hmark : ofMark? c = none := by
    unfold ofMark?
    split <;> first | rfl | exact absurd rfl (hother _ rfl)
  simp [isInner, isBlank, hmark, hother ' ' rfl, hother '\n' rfl, hother '\t' rfl, hother '\r' rfl,
    hother '"' rfl]

/-- A numeral is no other word. -/
theorem ofWord?_of_value? {word : List Char} {value : Value}
    (h : JsonNumber.value? word = some value) : ofWord? word = some (.scalar value) := by
  have hother : ∀ other, JsonNumber.value? other = none → word ≠ other := by
    rintro other hnone rfl
    rw [h] at hnone
    cases hnone
  rw [ofWord?, if_neg (hother _ (by decide)), if_neg (hother _ (by decide)),
    if_neg (hother _ (by decide)), h, Option.map_some]

/-- A whole number of 64 bits is one token. -/
theorem lexes_toString {n : Int} (hleast : -0x8000000000000000 ≤ n)
    (hmost : n < 0x10000000000000000) : Lexes (toString n).toList [.scalar (.whole n)] := by
  have htoken := ofWord?_of_value? (JsonNumber.value?_toString hleast hmost)
  have hinner : ∀ m : Nat, ∀ c ∈ m.repr.toList, isInner c = true := fun m c hc =>
    isInner_of_isDigit (Decimal.isDigit_of_mem_repr hc)
  cases n with
  | ofNat n => exact lexes_word (hinner n) htoken
  | negSucc n =>
    rw [JsonNumber.toList_toString_neg] at *
    exact lexes_word (List.forall_mem_cons.2 ⟨by decide, hinner (n + 1)⟩) htoken

theorem fresh_mark {c : Char} {token : JsonToken} (h : ofMark? c = some token) :
    fresh tokens c = ⟨token :: tokens, .between⟩ := by
  unfold ofMark? at h
  split at h <;> cases h <;> rfl

/-- Behind a mark, a text is read as it is alone. -/
theorem Lexes.cons_mark {c : Char} {token : JsonToken} {written : List Char}
    {found : List JsonToken} (hmark : ofMark? c = some token) (h : Lexes written found) :
    Lexes (c :: written) (token :: found) := by
  intro tokens rest hends
  have hstep : step ⟨tokens, .between⟩ c = some ⟨token :: tokens, .between⟩ :=
    congrArg some (fresh_mark hmark)
  rw [List.cons_append, run?_of_step hstep, h _ _ hends, List.reverse_cons, List.append_assoc,
    List.singleton_append]

/-- A mark holds what is before it apart from what is behind it. -/
theorem Lexes.append_mark {c : Char} {token : JsonToken} {before behind : List Char}
    {first second : List JsonToken} (hbefore : Lexes before first) (hmark : ofMark? c = some token)
    (hbehind : Lexes behind second) :
    Lexes (before ++ c :: behind) (first ++ token :: second) := by
  intro tokens rest hends
  have hmarked : EndsWord (c :: behind ++ rest) := Option.isSome_of_eq_some hmark
  rw [List.append_assoc, hbefore _ _ hmarked, hbehind.cons_mark hmark _ _ hends,
    List.reverse_append, List.append_assoc]

theorem Lexes.ofText? {written : List Char} {found : List JsonToken} (h : Lexes written found) :
    JsonToken.ofText? written = some found := by
  have hread := h [] [] trivial
  rw [List.append_nil, List.append_nil] at hread
  show run? ⟨[], .between⟩ written = _
  rw [hread]
  exact congrArg some (List.reverse_reverse found)

end Lexer

end JsonToken

end Config

end ChunkedUpload
