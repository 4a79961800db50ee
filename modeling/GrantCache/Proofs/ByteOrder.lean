import Mathlib.Data.String.Basic

/-!
# The order of texts

Texts are compared character by character. UTF-8 is made so that comparing their bytes gives the
same order: of two characters the smaller one has the smaller bytes, and these differ before either
of them ends (`utf8_lt`). So a list of texts that is in order is in the order of the bytes
(`bytes_lt_iff`).
-/

namespace GrantCache.Text

/-- The UTF-8 bytes of a text. -/
def bytes (s : String) : List UInt8 := s.toByteArray.data.toList

theorem bytes_eq (s : String) : bytes s = s.toList.flatMap String.utf8EncodeChar := by
  have encoded : s.toByteArray = (s.toList.flatMap String.utf8EncodeChar).toByteArray :=
    String.utf8Encode_toList.symm
  rw [bytes, encoded, List.data_toByteArray]

theorem ofNat_inj {m n : Nat} (hm : m < UInt8.size) (hn : n < UInt8.size) :
    UInt8.ofNat m = UInt8.ofNat n ↔ m = n := by
  rw [← UInt8.toNat_inj, UInt8.toNat_ofNat_of_lt' hm, UInt8.toNat_ofNat_of_lt' hn]

/-- Whatever follows them, the bytes of the smaller character come first. -/
theorem utf8_lt {c d : Char} (h : c < d) (x y : List UInt8) :
    String.utf8EncodeChar c ++ x < String.utf8EncodeChar d ++ y := by
  have lt : c.val.toNat < d.val.toNat := h
  have small : d.val.toNat < 1114112 := by
    have valid := d.valid
    simp only [UInt32.isValidChar, Nat.isValidChar] at valid
    omega
  -- A byte more is a digit more, in base 64.
  have second (n : Nat) : n / 4096 = n / 64 / 64 := (Nat.div_div_eq_div_mul n 64 64).symm
  have third (n : Nat) : n / 262144 = n / 64 / 64 / 64 := by
    rw [Nat.div_div_eq_div_mul, Nat.div_div_eq_div_mul]
  simp only [String.utf8EncodeChar]
  generalize c.val.toNat = m at lt ⊢
  generalize d.val.toNat = n at lt small ⊢
  -- In all cases of one to four bytes for either character it is about the first digit that
  -- differs.
  split_ifs <;>
    simp (disch := (rw [UInt8.size]; omega)) only [List.cons_append, List.nil_append,
      List.cons_lt_cons_iff, UInt8.ofNat_lt_iff_lt, ofNat_inj, second, third] <;>
    omega

theorem bytes_lt {a b : String} (h : a < b) : bytes a < bytes b := by
  rw [bytes_eq, bytes_eq]
  have chars : a.toList < b.toList := String.lt_iff_toList_lt.1 h
  generalize a.toList = cs at chars
  generalize b.toList = ds at chars
  induction chars with
  | @nil d ds =>
    cases he : String.utf8EncodeChar d with
    | nil => exact absurd he String.utf8EncodeChar_ne_nil
    | cons byte rest =>
      rw [List.flatMap_cons, he]
      exact List.nil_lt_cons _ _
  | @cons c cs ds _ ih => exact List.append_left_lt ih
  | rel h => exact utf8_lt h _ _

/-- The order of texts is that of their bytes. -/
theorem bytes_lt_iff {a b : String} : bytes a < bytes b ↔ a < b := by
  constructor
  · intro h
    rcases lt_trichotomy a b with below | rfl | above
    · exact below
    · exact absurd h (List.lt_irrefl _)
    · exact absurd h (List.lt_asymm (bytes_lt above))
  · exact bytes_lt

end GrantCache.Text
