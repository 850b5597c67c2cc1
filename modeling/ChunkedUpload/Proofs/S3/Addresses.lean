import ChunkedUpload.S3.Client
import ChunkedUpload.S3.Server

/-!
# Copy sources name what they are made for

Percent encoding can be undone (`Percent.decode?_encode`), so the service finds in a copy source the
bucket and the key that the client put there (`sourceAddress?_header`), and copies that object
(`copied?_copySource`). This is so if the name of the bucket has no slash, as a copy source names
the bucket up to its first slash.
-/

namespace ChunkedUpload

namespace Bytes

theorem toList_loop (bytes : ByteArray) (i : Nat) (front : List UInt8) :
    ByteArray.toList.loop bytes i front = front.reverse ++ bytes.data.toList.drop i := by
  induction i, front using ByteArray.toList.loop.induct bytes with
  | case1 i front hi ih =>
    have hlen : i < bytes.data.toList.length := hi
    have hget : bytes.get! i = bytes.data.toList[i] := getElem!_pos bytes.data i hi
    rw [ByteArray.toList.loop, if_pos hi, ih, hget, List.reverse_cons, List.append_assoc,
      List.singleton_append, ← List.drop_eq_getElem_cons hlen]
  | case2 i front hi =>
    have hlen : bytes.data.toList.length ≤ i := Nat.le_of_not_lt hi
    rw [ByteArray.toList.loop, if_neg hi, List.drop_of_length_le hlen, List.append_nil]

theorem ofText_eq (text : String) : ofText text = text.toByteArray.data.toList := by
  rw [ofText, String.toUTF8_eq_toByteArray, ByteArray.toList, toList_loop, List.reverse_nil,
    List.nil_append, List.drop_zero]

theorem text?_ofText (text : String) : text? (ofText text) = some text := by
  have hbytes : (ofText text).toByteArray = text.toByteArray := by
    rw [ofText_eq]
    exact ByteArray.ext (Array.ext' List.toList_data_toByteArray)
  rw [text?, hbytes, String.fromUTF8?, dif_pos text.isValidUTF8]
  exact congrArg some (String.toByteArray_inj.1 rfl)

end Bytes

namespace Percent

theorem hexValue?_hexDigit : ∀ n, n < 16 → hexValue? (hexDigit n) = some n := by
  decide

/-- A byte that stands for itself is a character of one byte, and not the percent sign. -/
theorem ofText_plain {b : UInt8} (h : isPlain b = true) :
    Char.ofNat b.toNat ≠ '%' ∧ Bytes.ofText (Char.ofNat b.toNat).toString = [b] := by
  have hascii : ∀ n, n < 256 → isPlain (UInt8.ofNat n) = true → Char.ofNat n ≠ '%' ∧
      (Char.ofNat n).utf8Size = 1 ∧ (Char.ofNat n).val.toUInt8 = UInt8.ofNat n := by
    decide +kernel
  have hb : UInt8.ofNat b.toNat = b := UInt8.ofNat_toNat
  obtain ⟨hpercent, hsize, hvalue⟩ := hascii b.toNat b.toNat_lt (hb.symm ▸ h)
  have hbytes : String.utf8EncodeChar (Char.ofNat b.toNat) = [b] := by
    rw [String.utf8EncodeChar_eq_singleton hsize, hvalue, hb]
  refine ⟨hpercent, ?_⟩
  rw [Bytes.ofText_eq, Char.toString_eq_singleton, String.toByteArray_singleton,
    List.utf8Encode_singleton, hbytes]
  exact List.toList_data_toByteArray

theorem decodeBytes_encodeByte (b : UInt8) (cs : List Char) :
    decodeBytes (encodeByte b ++ cs) = b :: decodeBytes cs := by
  unfold encodeByte
  split
  · rename_i hplain
    obtain ⟨hpercent, hbyte⟩ := ofText_plain hplain
    rw [List.singleton_append, decodeBytes, hbyte]
    · rfl
    · rintro h l r heq
      exact absurd heq hpercent
  · have hb : b.toNat < 256 := b.toNat_lt
    have hhigh := hexValue?_hexDigit (b.toNat / 16) (by omega)
    have hlow := hexValue?_hexDigit (b.toNat % 16) (Nat.mod_lt _ (by decide))
    have hsum : b.toNat / 16 * 16 + b.toNat % 16 = b.toNat := by omega
    simp only [List.cons_append, List.nil_append, decodeBytes, hhigh, hlow, hsum,
      UInt8.ofNat_toNat]

theorem decodeBytes_encodeBytes (bytes : Bytes) : decodeBytes (encodeBytes bytes) = bytes := by
  induction bytes with
  | nil => rfl
  | cons b bytes ih =>
    rw [encodeBytes, List.flatMap_cons, decodeBytes_encodeByte]
    exact congrArg _ ih

theorem decode?_encode (text : String) : decode? (encode text) = some text := by
  rw [decode?, encode, String.toList_ofList, decodeBytes_encodeBytes, Bytes.text?_ofText]

end Percent

namespace S3

/-- The slash after the bucket is the first one. -/
theorem sourceAddress?_header {bucket : String} (hbucket : '/' ∉ bucket.toList) (key : String) :
    Server.sourceAddress? (bucket ++ "/" ++ Percent.encode key) = some (bucket, key) := by
  have htext : (bucket ++ "/" ++ Percent.encode key).toList =
      bucket.toList ++ '/' :: (Percent.encode key).toList := by
    simp
  have hplain : ∀ c ∈ bucket.toList, decide (c ≠ '/') = true := fun c hc =>
    decide_eq_true fun heq => hbucket (heq ▸ hc)
  have hbefore : (bucket ++ "/" ++ Percent.encode key).toList.takeWhile (· ≠ '/') =
      bucket.toList := by
    rw [htext, List.takeWhile_append_of_pos hplain]
    simp
  have hafter : ((bucket ++ "/" ++ Percent.encode key).toList.dropWhile (· ≠ '/')).drop 1 =
      (Percent.encode key).toList := by
    rw [htext, List.dropWhile_append_of_pos hplain]
    simp
  simp only [Server.sourceAddress?, hbefore, hafter, String.ofList_toList, Percent.decode?_encode,
    Option.bind_eq_bind, Option.bind_some]

/-- The text that names `source` as what is to be copied. -/
def Client.copySource (c : Client) (bucket source : String) : String :=
  bucket ++ "/" ++ Percent.encode (c.fullKey source)

/-- A copy is of the object that its source was made for. -/
theorem Server.copied?_copySource {s : Server} {c : Client} {bucket source : String}
    (hbucket : '/' ∉ bucket.toList) (range : Option CopyRange) :
    s.copied? (c.copySource bucket source) range =
      (s.content? (bucket, c.fullKey source)).map (excerpt range) := by
  rw [Client.copySource, Server.copied?, sourceAddress?_header hbucket, Option.bind_some]

/-- What is copied of an object is as long as the object is reported to be. -/
theorem Server.length_content? {s : Server} {address : Address} {size : Nat}
    (h : s.length? address = some size) :
    ∃ content, s.content? address = some content ∧ content.length = size := by
  refine ⟨_, by rw [content?, h]; rfl, ?_⟩
  rw [List.length_rightpad, List.length_take]
  exact Nat.max_eq_left (Nat.min_le_left _ _)

/-- An object whose true length is reported is copied as it is. -/
theorem Server.content?_of_told {s : Server} {address : Address}
    (h : s.length? address = (s.objects.get? address).map List.length) :
    s.content? address = s.objects.get? address := by
  rw [content?, h]
  cases s.objects.get? address with
  | none => rfl
  | some content => simp [List.rightpad]

/-- Different keys are kept under different ones. -/
theorem Client.fullKey_inj {c : Client} {key key' : String} (h : c.fullKey key = c.fullKey key') :
    key = key' := by
  unfold Client.fullKey at h
  cases hfront : c.keyPrefix with
  | none => rwa [hfront] at h
  | some keyPrefix =>
    rw [hfront] at h
    exact (String.append_right_inj _).1 h

theorem Client.fullAddress_inj {c : Client} {bucket bucket' key key' : String} :
    (bucket', c.fullKey key') = (bucket, c.fullKey key) ↔ (bucket', key') = (bucket, key) := by
  rw [Prod.mk.injEq, Prod.mk.injEq]
  exact and_congr_right fun _ => ⟨Client.fullKey_inj, congrArg _⟩

theorem Client.fullKey_ne_empty {c : Client} {key : String} (h : key ≠ "") :
    c.fullKey key ≠ "" := by
  unfold Client.fullKey
  cases c.keyPrefix with
  | none => exact h
  | some keyPrefix =>
    simp

end S3

end ChunkedUpload
