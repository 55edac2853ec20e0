import Mathlib.Data.String.Basic
import Mathlib.Order.Defs.LinearOrder
import Mathlib.Tactic.SplitIfs

namespace CacheAside

def bytes (text : String) : List UInt8 := text.toUTF8.data.toList

theorem bytes_eq (text : String) : bytes text = text.toList.flatMap String.utf8EncodeChar := by
  obtain ⟨cs, rfl⟩ : ∃ cs, text = String.ofList cs := ⟨_, String.ofList_toList.symm⟩
  simp [bytes, List.utf8Encode]

theorem utf8EncodeChar_append_lt {c d : Char} (less : c < d) (cs ds : List UInt8) :
    String.utf8EncodeChar c ++ cs < String.utf8EncodeChar d ++ ds := by
  have order : c.val.toNat < d.val.toNat := UInt32.lt_iff_toNat_lt.mp less
  have bound : d.val.toNat < 0x110000 := by
    have valid := d.valid
    simp only [UInt32.isValidChar, Nat.isValidChar] at valid
    omega
  simp only [String.utf8EncodeChar]
  generalize c.val.toNat = m at order
  generalize d.val.toNat = n at order bound
  -- Of two numbers the smaller has the smaller digit in the first place where they differ.
  have digit : ∀ {a b : Nat}, a < b → a / 64 < b / 64 ∨ a / 64 = b / 64 ∧ a % 64 < b % 64 := by
    omega
  have last := digit order
  have third : m / 64 < n / 64 → m / 4096 < n / 4096 ∨
      m / 4096 = n / 4096 ∧ m / 64 % 64 < n / 64 % 64 := by
    omega
  have second : m / 4096 < n / 4096 → m / 262144 < n / 262144 ∨
      m / 262144 = n / 262144 ∧ m / 4096 % 64 < n / 4096 % 64 := by
    omega
  split_ifs
  all_goals
    simp (disch := omega) only [List.cons_append, List.nil_append, List.cons_lt_cons_iff,
      UInt8.lt_iff_toNat_lt, ← UInt8.toNat_inj, UInt8.toNat_ofNat', Nat.mod_eq_of_lt,
      Nat.add_lt_add_iff_right, Nat.add_right_cancel_iff]
    omega

theorem bytes_lt_of_lt {s t : String} (less : s < t) : bytes s < bytes t := by
  rw [bytes_eq, bytes_eq]
  have order := (List.lt_iff_lex_lt _ _).mp (String.lt_iff.mp less)
  generalize s.toList = cs at order
  generalize t.toList = ds at order
  induction order with
  | @nil d ds =>
    have sent : 0 < (String.utf8EncodeChar d).length := by simp [Char.utf8Size_pos]
    obtain ⟨first, rest, encoded⟩ := List.exists_cons_of_length_pos sent
    simp [encoded]
  | rel less => exact utf8EncodeChar_append_lt less _ _
  | cons rest ih => exact List.append_left_lt ih

theorem prefix_of_utf8Encode {cs ds : List Char}
    (starts : cs.flatMap String.utf8EncodeChar <+: ds.flatMap String.utf8EncodeChar) :
    cs <+: ds := by
  induction cs generalizing ds with
  | nil => exact List.nil_prefix
  | cons c cs ih =>
    obtain ⟨rest, same⟩ := starts
    rw [List.flatMap_cons, List.append_assoc] at same
    cases ds with
    | nil =>
      have sent : 0 < (String.utf8EncodeChar c).length := by simp [Char.utf8Size_pos]
      rw [List.flatMap_nil, List.append_eq_nil_iff] at same
      rw [same.1] at sent
      exact absurd sent (Nat.lt_irrefl 0)
    | cons d ds =>
      rw [List.flatMap_cons] at same
      have equal : c = d := by
        rcases lt_trichotomy c d with less | equal | greater
        · exact absurd (same ▸ utf8EncodeChar_append_lt less _ _) (List.lt_irrefl _)
        · exact equal
        · exact absurd (same ▸ utf8EncodeChar_append_lt greater _ _) (List.lt_irrefl _)
      subst equal
      exact List.cons_prefix_cons.mpr ⟨rfl, ih ⟨rest, List.append_cancel_left same⟩⟩

theorem bytes_prefix_iff {s t : String} : bytes s <+: bytes t ↔ s.toList <+: t.toList := by
  rw [bytes_eq, bytes_eq]
  refine ⟨prefix_of_utf8Encode, ?_⟩
  rintro ⟨rest, same⟩
  rw [← same, List.flatMap_append]
  exact List.prefix_append ..

end CacheAside
