import CacheAside.Proofs.Store.ByteOrder
import CacheAside.Store.Entries
import CacheAside.Store.Glob
import Mathlib.Data.List.Infix

namespace CacheAside

namespace Glob

/-- What stands in brackets: characters from one to another, or all but these. -/
structure Charset where
  isNegated : Bool
  ranges : List (Char × Char)
  deriving DecidableEq, Repr

def Charset.has (set : Charset) (c : Char) : Bool :=
  set.isNegated != set.ranges.any fun (a, b) => (a ≤ c && c ≤ b) || (b ≤ c && c ≤ a)

inductive Piece where
  | anyText
  | anyChar
  | oneOf (set : Charset)
  | exactly (c : Char)
  deriving DecidableEq, Repr

mutual

/-- A backslash at the end, and a bracket that closes nothing, stand for themselves. -/
def pieces : List Char → List Piece
  | [] => []
  | '*' :: cs => .anyText :: pieces cs
  | '?' :: cs => .anyChar :: pieces cs
  | '[' :: '^' :: cs => bracket true [] cs
  | '[' :: cs => bracket false [] cs
  | '\\' :: c :: cs => .exactly c :: pieces cs
  | c :: cs => .exactly c :: pieces cs

def bracket (isNegated : Bool) (ranges : List (Char × Char)) : List Char → List Piece
  | [] => [.oneOf ⟨isNegated, ranges⟩]
  | ']' :: cs => .oneOf ⟨isNegated, ranges⟩ :: pieces cs
  | '\\' :: c :: cs => bracket isNegated ((c, c) :: ranges) cs
  | a :: '-' :: b :: cs => bracket isNegated ((a, b) :: ranges) cs
  | c :: cs => bracket isNegated ((c, c) :: ranges) cs

end

def accepts : List Piece → List Char → Bool
  | [], text => text.isEmpty
  | .anyText :: rest, text => text.tails.any fun left => accepts rest left
  | .anyChar :: rest, _ :: text => accepts rest text
  | .oneOf set :: rest, c :: text => set.has c && accepts rest text
  | .exactly d :: rest, c :: text => c = d && accepts rest text
  | _ :: _, [] => false

def Matches (pattern text : List Char) : Prop := accepts (pieces pattern) text = true

instance (pattern text : List Char) : Decidable (Matches pattern text) :=
  inferInstanceAs (Decidable (_ = true))

variable {pattern text : List Char} {c : Char}

theorem matches_nil : Matches [] text ↔ text = [] := List.isEmpty_iff

theorem matches_star : Matches ('*' :: pattern) text ↔
    ∃ skipped left, text = skipped ++ left ∧ Matches pattern left := by
  simp only [Matches, pieces, accepts, List.any_eq_true, List.mem_tails]
  constructor
  · rintro ⟨left, ⟨skipped, same⟩, matched⟩
    exact ⟨skipped, left, same.symm, matched⟩
  · rintro ⟨skipped, left, same, matched⟩
    exact ⟨left, ⟨skipped, same.symm⟩, matched⟩

theorem accepts_exactly {rest : List Piece} : accepts (.exactly c :: rest) text = true ↔
    ∃ left, text = c :: left ∧ accepts rest left = true := by
  cases text with
  | nil => simp [accepts]
  | cons d left => simp [accepts, and_assoc]

theorem matches_backslash : Matches ('\\' :: c :: pattern) text ↔
    ∃ left, text = c :: left ∧ Matches pattern left := by
  rw [Matches, pieces, accepts_exactly]
  rfl

theorem matches_plain (plain : isMeta c = false) : Matches (c :: pattern) text ↔
    ∃ left, text = c :: left ∧ Matches pattern left := by
  have literal : pieces (c :: pattern) = .exactly c :: pieces pattern := by
    rw [pieces] <;> intros <;> subst_vars <;> simp [isMeta] at plain
  rw [Matches, literal, accepts_exactly]
  rfl

example : Matches "h[^a-e]\\**".toList "hi*!".toList := by decide

theorem escape_append (cs ds : List Char) : escape (cs ++ ds) = escape cs ++ escape ds := by
  induction cs with
  | nil => rfl
  | cons c cs ih => cases special : isMeta c <;> simp [escape, special, ih]

theorem matches_escape (start : List Char) :
    Matches (escape start ++ pattern) text ↔
      ∃ left, text = start ++ left ∧ Matches pattern left := by
  induction start generalizing text with
  | nil => simp [escape]
  | cons c start ih =>
    have first : Matches (escape (c :: start) ++ pattern) text ↔
        ∃ left, text = c :: left ∧ Matches (escape start ++ pattern) left := by
      cases special : isMeta c with
      | true =>
        simp only [escape, special, if_true, List.cons_append]
        exact matches_backslash
      | false =>
        simp only [escape, special, Bool.false_eq_true, if_false, List.cons_append]
        exact matches_plain special
    rw [first]
    constructor
    · rintro ⟨_, rfl, later⟩
      obtain ⟨left, rfl, matched⟩ := ih.mp later
      exact ⟨left, rfl, matched⟩
    · rintro ⟨left, rfl, matched⟩
      exact ⟨_, rfl, ih.mpr ⟨left, rfl, matched⟩⟩

theorem matches_escape_star (start : List Char) :
    Matches (escape start ++ ['*']) text ↔ start <+: text := by
  rw [matches_escape]
  constructor
  · rintro ⟨left, rfl, -⟩
    exact List.prefix_append ..
  · rintro ⟨left, rfl⟩
    refine ⟨left, rfl, matches_star.mpr ⟨left, [], (List.append_nil _).symm, ?_⟩⟩
    exact matches_nil.mpr rfl

/-- A byte as the character that it is to a server which knows no others. -/
def octet (byte : UInt8) : Char := Char.ofNat byte.toNat

def octets (text : String) : List Char := (bytes text).map octet

theorem toNat_octet (byte : UInt8) : (octet byte).toNat = byte.toNat := by
  have valid : byte.toNat.isValidChar := .inl (Nat.lt_trans byte.toNat_lt (by decide))
  rw [octet, Char.ofNat, dif_pos valid]
  rfl

theorem octet_injective : Function.Injective octet := by
  intro a b same
  rw [← UInt8.toNat_inj, ← toNat_octet, ← toNat_octet, same]

theorem octets_prefix_iff {s t : String} : octets s <+: octets t ↔ s.toList <+: t.toList :=
  (List.prefix_map_iff_of_injective octet_injective).trans bytes_prefix_iff

theorem octets_eq (text : String) :
    octets text = text.toList.flatMap fun c => (String.utf8EncodeChar c).map octet := by
  rw [octets, bytes_eq, List.map_flatMap]

theorem toNat_lt_of_isMeta (special : isMeta c = true) : c.toNat < 128 := by
  simp only [isMeta, Bool.or_eq_true, decide_eq_true_eq] at special
  rcases special with (((rfl | rfl) | rfl) | rfl) | rfl <;> decide

theorem octets_of_ascii (ascii : c.toNat < 128) :
    (String.utf8EncodeChar c).map octet = [c] := by
  have single : String.utf8EncodeChar c = [UInt8.ofNat c.toNat] := by
    rw [String.utf8EncodeChar]
    exact if_pos (Nat.le_of_lt_succ ascii)
  have sent : (UInt8.ofNat c.toNat).toNat = c.toNat :=
    UInt8.toNat_ofNat_of_lt' (Nat.lt_trans ascii (by decide))
  rw [single, List.map_singleton, octet, sent, Char.ofNat_toNat]

theorem plain_of_not_ascii (beyond : ¬ c.toNat < 128) :
    ∀ d ∈ (String.utf8EncodeChar c).map octet, isMeta d = false := by
  have bytes_beyond : ∀ byte ∈ String.utf8EncodeChar c, 128 ≤ byte.toNat := by
    simp only [String.utf8EncodeChar]
    rw [if_neg (by exact fun small => beyond (Nat.lt_succ_of_le small))]
    split_ifs <;> simp [UInt8.toNat_ofNat'] <;> omega
  intro d there
  obtain ⟨byte, sent, rfl⟩ := List.mem_map.mp there
  refine Bool.eq_false_iff.mpr fun special => ?_
  have small := toNat_lt_of_isMeta special
  rw [toNat_octet] at small
  exact absurd (bytes_beyond byte sent) (Nat.not_le.mpr small)

theorem escape_of_plain {cs : List Char} (plain : ∀ c ∈ cs, isMeta c = false) :
    escape cs = cs := by
  induction cs with
  | nil => rfl
  | cons c cs ih =>
    obtain ⟨first, rest⟩ := List.forall_mem_cons.mp plain
    simp [escape, first, ih rest]

theorem escape_octets (cs : List Char) :
    (escape cs).flatMap (fun c => (String.utf8EncodeChar c).map octet) =
      escape (cs.flatMap fun c => (String.utf8EncodeChar c).map octet) := by
  induction cs with
  | nil => rfl
  | cons c cs ih =>
    rw [List.flatMap_cons, escape_append, ← ih]
    by_cases ascii : c.toNat < 128
    · rw [octets_of_ascii ascii]
      have backslash : (String.utf8EncodeChar '\\').map octet = ['\\'] :=
        octets_of_ascii (by decide)
      cases special : isMeta c <;> simp [escape, special, octets_of_ascii ascii, backslash]
    · have plain : isMeta c = false :=
        Bool.eq_false_iff.mpr fun special => ascii (toNat_lt_of_isMeta special)
      rw [escape_of_plain (plain_of_not_ascii ascii)]
      simp [escape, plain]

theorem octets_startingWith (start : String) :
    octets (startingWith start) = escape (octets start) ++ ['*'] := by
  have star : (String.utf8EncodeChar '*').map octet = ['*'] := octets_of_ascii (by decide)
  rw [octets_eq, octets_eq, startingWith, String.toList_ofList, List.flatMap_append, escape_octets,
    List.flatMap_singleton, star]

/-- The pattern that is sent for a start matches the keys that have it and no others, whether a
server compares characters or bytes. -/
theorem matches_startingWith_iff (start key : String) :
    (Matches (startingWith start).toList key.toList ↔ startsWith start key = true) ∧
      (Matches (octets (startingWith start)) (octets key) ↔ startsWith start key = true) := by
  rw [startsWith, List.isPrefixOf_iff_prefix]
  constructor
  · rw [startingWith, String.toList_ofList, matches_escape_star]
  · rw [octets_startingWith, matches_escape_star, octets_prefix_iff]

end Glob

end CacheAside
