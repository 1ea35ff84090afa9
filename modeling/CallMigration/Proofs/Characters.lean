import CallMigration.Proofs.Basic

/-!
# Reading the characters of a text

A text is stored as bytes, and its characters are decoded one by one, each time counting from the first
byte. What is said of one text is checked by evaluation, so the functions here give the same characters
with less of that work: they are read from the bytes in one go.

* `Evaluated.chars` : the characters of a text.
* `Evaluated.withChars` : goes on with the characters of a text, all of them read before.
* `Evaluated.firstByte?` : tells the first character of a text.
-/

namespace CallMigration.Evaluated

def bytes (s : String) : List UInt8 :=
  s.toByteArray.data.toList

/-- The characters that bytes stand for, if these are all of ASCII. -/
def ofAscii? : List UInt8 → Option (List Char)
  | [] => some []
  | b :: bs => if b.toNat < 128 then (ofAscii? bs).map (Char.ofNat b.toNat :: ·) else none

def chars (s : String) : List Char :=
  (ofAscii? (bytes s)).getD s.toList

theorem bytes_eq (s : String) : bytes s = s.toList.flatMap String.utf8EncodeChar := by
  have hs : s.toByteArray = (String.ofList s.toList).toByteArray := by rw [String.ofList_toList]
  rw [bytes, hs, String.toByteArray_ofList, List.utf8Encode, List.toList_data_toByteArray]

theorem toNat_byte {c : Char} (h : c.toNat < 128) : (UInt8.ofNat c.toNat).toNat = c.toNat := by
  rw [UInt8.toNat_ofNat', Nat.mod_eq_of_lt (by omega)]

theorem utf8EncodeChar_of_ascii {c : Char} (h : c.toNat < 128) :
    String.utf8EncodeChar c = [UInt8.ofNat c.toNat] := by
  have hval : c.val.toNat = c.toNat := rfl
  simp only [String.utf8EncodeChar, hval]
  rw [if_pos (by omega)]

theorem exists_utf8EncodeChar {c : Char} (h : ¬c.toNat < 128) :
    ∃ b bs, String.utf8EncodeChar c = b :: bs ∧ ¬b.toNat < 128 := by
  have hval : c.val.toNat = c.toNat := rfl
  have hbyte {n : Nat} (hn : 128 ≤ n) (hsize : n < 256) : ¬(UInt8.ofNat n).toNat < 128 := by
    rw [UInt8.toNat_ofNat', Nat.mod_eq_of_lt hsize]
    omega
  simp only [String.utf8EncodeChar, hval]
  rw [if_neg (by omega)]
  split
  · exact ⟨_, _, rfl, hbyte (by omega) (by omega)⟩
  · split
    · exact ⟨_, _, rfl, hbyte (by omega) (by omega)⟩
    · exact ⟨_, _, rfl, hbyte (by omega) (by omega)⟩

theorem ofAscii?_utf8EncodeChar (c : Char) (bs : List UInt8) :
    ofAscii? (String.utf8EncodeChar c ++ bs) =
      if c.toNat < 128 then (ofAscii? bs).map (c :: ·) else none := by
  by_cases h : c.toNat < 128
  · rw [utf8EncodeChar_of_ascii h, List.singleton_append, ofAscii?, toNat_byte h, Char.ofNat_toNat]
  · obtain ⟨b, rest, hencode, hb⟩ := exists_utf8EncodeChar h
    rw [hencode, List.cons_append, ofAscii?, if_neg hb, if_neg h]

theorem ofAscii?_flatMap {s cs : List Char}
    (h : ofAscii? (s.flatMap String.utf8EncodeChar) = some cs) : s = cs := by
  induction s generalizing cs with
  | nil => exact Option.some.inj h
  | cons c s ih =>
    rw [List.flatMap_cons, ofAscii?_utf8EncodeChar, Option.ite_none_right_eq_some] at h
    obtain ⟨rest, hrest, rfl⟩ := Option.map_eq_some_iff.mp h.2
    rw [ih hrest]

theorem chars_eq (s : String) : chars s = s.toList := by
  rw [chars, bytes_eq]
  cases hascii : ofAscii? (s.toList.flatMap String.utf8EncodeChar) with
  | none => rfl
  | some cs => exact (ofAscii?_flatMap hascii).symm

/-! ## Reading first -/

variable {α : Type}

/-- Goes on with the characters that bytes stand for, or gives `other` if these are not all of ASCII. In
the match each character is evaluated, so that those that are equal are the same term from here on. -/
def readAscii (other : α) : List UInt8 → (List Char → α) → α
  | [], go => go []
  | b :: bs, go =>
    match b.toNat with
    | 0 => readAscii other bs fun cs => go (Char.ofNat 0 :: cs)
    | n + 1 =>
      if n + 1 < 128 then readAscii other bs fun cs => go (Char.ofNat (n + 1) :: cs) else other

/-- Goes on with the characters of a text. -/
def withChars (s : String) (go : List Char → α) : α :=
  readAscii (go s.toList) (bytes s) go

theorem readAscii_eq (other : α) (bs : List UInt8) (go : List Char → α) :
    readAscii other bs go = ((ofAscii? bs).map go).getD other := by
  induction bs generalizing go with
  | nil => rfl
  | cons b bs ih =>
    rw [readAscii, ofAscii?]
    split
    next hb =>
      rw [ih, hb, if_pos (by decide)]
      cases ofAscii? bs <;> rfl
    next n hb =>
      rw [ih, hb]
      split
      · cases ofAscii? bs <;> rfl
      · rfl

theorem withChars_eq (s : String) (go : List Char → α) : withChars s go = go s.toList := by
  rw [withChars, readAscii_eq, bytes_eq]
  cases hascii : ofAscii? (s.toList.flatMap String.utf8EncodeChar) with
  | none => rfl
  | some cs => rw [ofAscii?_flatMap hascii, Option.map_some, Option.getD_some]

/-! ## The first character -/

def firstByte? (s : String) : Option Nat :=
  (bytes s).head?.map (·.toNat)

theorem exists_of_firstByte? {s : String} {b : Nat} (h : firstByte? s = some b) :
    ∃ c cs, s.toList = c :: cs ∧ (c.toNat < 128 → c.toNat = b) := by
  rw [firstByte?, bytes_eq] at h
  cases hs : s.toList with
  | nil =>
    rw [hs] at h
    cases h
  | cons c cs =>
    refine ⟨c, cs, rfl, fun hc => ?_⟩
    rw [hs, List.flatMap_cons, utf8EncodeChar_of_ascii hc] at h
    have hbyte : (UInt8.ofNat c.toNat).toNat = b := Option.some.inj h
    rw [← hbyte, toNat_byte hc]

end CallMigration.Evaluated
