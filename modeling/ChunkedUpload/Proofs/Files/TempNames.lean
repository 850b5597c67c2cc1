import ChunkedUpload.Files.TempName
import ChunkedUpload.Proofs.Files.Walk

/-!
# The form of temporary names

A temporary name is the name it is made for with 41 bytes more (`utf8ByteSize_of`).
-/

namespace ChunkedUpload.Files.TempName

theorem length_hexDigits (count n : Nat) : (hexDigits count n).length = count := by
  induction count generalizing n with
  | zero => rfl
  | succ count ih => rw [hexDigits, List.length_append, ih, List.length_singleton]

theorem mem_hexDigits {count n : Nat} {c : Char} (h : c ∈ hexDigits count n) :
    ∃ k, k < 16 ∧ c = Nat.digitChar k := by
  induction count generalizing n with
  | zero => cases h
  | succ count ih =>
    rw [hexDigits, List.mem_append, List.mem_singleton] at h
    rcases h with h | rfl
    · exact ih h
    · exact ⟨n % 16, Nat.mod_lt n (by decide), rfl⟩

theorem mem_dashed {lengths : List Nat} {cs : List Char} {c : Char} (h : c ∈ dashed lengths cs) :
    c = '-' ∨ c ∈ cs := by
  induction lengths, cs using dashed.induct with
  | case1 => cases h
  | case2 cs => exact .inr h
  | case3 count counts cs hmore ih =>
    rw [dashed, List.mem_append, List.mem_cons] at h
    · rcases h with h | rfl | h
      · exact .inr (List.mem_of_mem_take h)
      · exact .inl rfl
      · exact (ih h).imp_right List.mem_of_mem_drop
    · exact hmore

theorem utf8ByteSize_ofList {cs : List Char} (h : ∀ c ∈ cs, c.utf8Size = 1) :
    (String.ofList cs).utf8ByteSize = cs.length := by
  induction cs with
  | nil => rfl
  | cons c cs ih =>
    rw [List.forall_mem_cons] at h
    have hsplit : String.ofList (c :: cs) = String.singleton c ++ String.ofList cs := by
      rw [String.singleton_eq_ofList, ← String.ofList_append]
      rfl
    rw [hsplit, String.utf8ByteSize_append, String.utf8ByteSize_singleton, h.1, ih h.2,
      List.length_cons, Nat.add_comm]

theorem mem_ticketText {ticket : Nat} {c : Char} (h : c ∈ (ticketText ticket).toList) :
    c = '-' ∨ ∃ k, k < 16 ∧ c = Nat.digitChar k := by
  rw [ticketText, String.toList_ofList] at h
  exact (mem_dashed h).imp_right mem_hexDigits

/-- Four dashes come on top of the 32 digits. -/
theorem utf8ByteSize_ticketText (ticket : Nat) : (ticketText ticket).utf8ByteSize = 36 := by
  have hlen := length_hexDigits 32 ticket
  have hsize : ∀ c ∈ dashed groups (hexDigits 32 ticket), c.utf8Size = 1 := by
    intro c hc
    rcases mem_dashed hc with rfl | hc
    · decide
    · obtain ⟨k, hk, rfl⟩ := mem_hexDigits hc
      have hdigit : ∀ k, k < 16 → (Nat.digitChar k).utf8Size = 1 := by decide
      exact hdigit k hk
  rw [ticketText, utf8ByteSize_ofList hsize]
  simp only [groups, dashed, List.length_append, List.length_cons, List.length_take,
    List.length_drop, hlen]
  omega

theorem utf8ByteSize_of (name : String) (ticket : Nat) :
    (of name ticket).utf8ByteSize = name.utf8ByteSize + 41 := by
  have hmarker : marker.utf8ByteSize = 5 := by decide
  rw [of, String.utf8ByteSize_append, String.utf8ByteSize_append, utf8ByteSize_ticketText, hmarker]

theorem isName_of (name : String) (ticket : Nat) : Path.IsName (of name ticket) := by
  have hsize := utf8ByteSize_of name ticket
  have hne : ∀ text : String, text.utf8ByteSize < 41 → of name ticket ≠ text := by
    rintro text hshort rfl
    omega
  exact .of_ne (hne "" (by decide)) (hne "." (by decide)) (hne ".." (by decide))

theorem noNul_of {name : String} (h : '\x00' ∉ name.toList) (ticket : Nat) :
    '\x00' ∉ (of name ticket).toList := by
  have hmarker : '\x00' ∉ marker.toList := by decide
  have hticket : '\x00' ∉ (ticketText ticket).toList := by
    intro hmem
    rcases mem_ticketText hmem with hdash | ⟨k, hk, hdigit⟩
    · cases hdash
    · have hno : ∀ k, k < 16 → '\x00' ≠ Nat.digitChar k := by decide
      exact hno k hk hdigit
  rw [of, String.toList_append, String.toList_append, List.mem_append, List.mem_append]
  exact not_or.2 ⟨not_or.2 ⟨h, hmarker⟩, hticket⟩

end ChunkedUpload.Files.TempName
