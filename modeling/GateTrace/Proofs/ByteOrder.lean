import Mathlib.Data.String.Basic
import Mathlib.Tactic.SplitIfs

/-! # Order of texts

    Texts are in the order of their bytes. The key ideas:

    - A greater character has a greater encoding, and is told by a byte that both encodings have. So
      whatever follows the two characters does not matter.
    - The order of texts is that of their first difference, on characters as on bytes.
-/

namespace GateTrace.Text

def bytes (s : String) : List UInt8 := s.toUTF8.data.toList

theorem bytes_eq_flatMap (s : String) : bytes s = s.toList.flatMap String.utf8EncodeChar := by
  have hencoded : s.toUTF8 = s.toList.utf8Encode := by
    rw [← String.toByteArray_ofList, String.ofList_toList]
    rfl
  rw [bytes, hencoded, List.utf8Encode, List.data_toByteArray, List.toList_toArray]

/-- Of two numbers the greater one has a greater leading part, or else a greater last digit. -/
theorem div_mod_lt {m n : Nat} (base : Nat) (h : m < n) :
    m / base < n / base ∨ m / base = n / base ∧ m % base < n % base := by
  have hm := Nat.div_add_mod m base
  have hn := Nat.div_add_mod n base
  rcases Nat.lt_trichotomy (m / base) (n / base) with hlt | heq | hgt
  · exact .inl hlt
  · rw [heq] at hm
    exact .inr ⟨heq, by omega⟩
  · exact absurd (Nat.div_le_div_right h.le) (Nat.not_le.mpr hgt)

/-- A greater character has a greater encoding, whatever follows. -/
theorem utf8EncodeChar_append_lt {c d : Char} (h : c < d) (u v : List UInt8) :
    String.utf8EncodeChar c ++ u < String.utf8EncodeChar d ++ v := by
  have hlt : c.val.toNat < d.val.toNat := h
  have hvalid : d.val.toNat < 0xd800 ∨ 0xdfff < d.val.toNat ∧ d.val.toNat < 0x110000 := d.valid
  simp only [String.utf8EncodeChar]
  generalize c.val.toNat = m at *
  generalize d.val.toNat = n at *
  -- Each byte holds one digit to the base of 64, from the leading one on.
  have hlast := div_mod_lt 64 hlt
  have hthird : m / 64 < n / 64 →
      m / 4096 < n / 4096 ∨ m / 4096 = n / 4096 ∧ m / 64 % 64 < n / 64 % 64 := by
    intro h
    simpa [Nat.div_div_eq_div_mul] using div_mod_lt 64 h
  have hsecond : m / 4096 < n / 4096 →
      m / 262144 < n / 262144 ∨ m / 262144 = n / 262144 ∧ m / 4096 % 64 < n / 4096 % 64 := by
    intro h
    simpa [Nat.div_div_eq_div_mul] using div_mod_lt 64 h
  split_ifs <;>
    simp (disch := omega) only [List.cons_append, List.cons_lt_cons_iff, UInt8.lt_iff_toNat_lt,
      ← UInt8.toNat_inj, UInt8.toNat_ofNat', Nat.mod_eq_of_lt] <;>
    omega

/-- Texts in order have their bytes in order. -/
theorem flatMap_utf8EncodeChar_lt {xs ys : List Char} (h : xs < ys) :
    xs.flatMap String.utf8EncodeChar < ys.flatMap String.utf8EncodeChar := by
  induction xs generalizing ys with
  | nil =>
    cases ys with
    | nil => exact absurd h (List.lt_irrefl [])
    | cons y ys =>
      -- A character has at least one byte, so a text that goes on is greater than one that ends.
      have hbyte : ∃ b bs, String.utf8EncodeChar y = b :: bs := by
        refine List.exists_cons_of_length_pos ?_
        rw [String.length_utf8EncodeChar]
        exact y.utf8Size_pos
      obtain ⟨b, bs, hbyte⟩ := hbyte
      rw [List.flatMap_nil, List.flatMap_cons, hbyte]
      exact List.nil_lt_cons ..
  | cons x xs ih =>
    cases ys with
    | nil => exact absurd h (List.not_lt_nil _)
    | cons y ys =>
      rw [List.flatMap_cons, List.flatMap_cons]
      -- The first characters decide, or else they are the same and the rest decides.
      rcases List.cons_lt_cons_iff.mp h with hlt | ⟨rfl, hrest⟩
      · exact utf8EncodeChar_append_lt hlt _ _
      · exact List.append_left_lt (ih hrest)

/-- Texts are in order if and only if their bytes are. -/
theorem lt_iff_bytes_lt (s t : String) : s < t ↔ bytes s < bytes t := by
  rw [bytes_eq_flatMap, bytes_eq_flatMap]
  have hmono : ∀ s t : String, s < t →
      s.toList.flatMap String.utf8EncodeChar < t.toList.flatMap String.utf8EncodeChar :=
    fun s t h => flatMap_utf8EncodeChar_lt (String.lt_iff_toList_lt.mp h)
  constructor
  · exact hmono s t
  · intro h
    rcases lt_trichotomy s t with hlt | rfl | hgt
    · exact hlt
    · exact absurd h (List.lt_irrefl _)
    · exact absurd h (List.lt_asymm (hmono t s hgt))

end GateTrace.Text
