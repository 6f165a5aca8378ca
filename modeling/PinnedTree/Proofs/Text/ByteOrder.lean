import Mathlib.Data.List.Sort
import Mathlib.Data.String.Basic
import PinnedTree.Proofs.Text.Keyed

namespace PinnedTree.Text

def bytes (s : String) : List UInt8 := s.toUTF8.data.toList

variable {a b n m : Nat} {c d : Char} {cs ds : List Char} {x y : List UInt8}

theorem bytes_eq (s : String) : bytes s = s.toList.flatMap String.utf8EncodeChar := by
  rw [bytes, String.toUTF8, ← String.utf8Encode_toList, List.utf8Encode, List.data_toByteArray]

theorem byte_lt (small : a < 256) (small' : b < 256) : UInt8.ofNat a < UInt8.ofNat b ↔ a < b := by
  rw [UInt8.lt_iff_toNat_lt, UInt8.toNat_ofNat_of_lt' small, UInt8.toNat_ofNat_of_lt' small']

theorem byte_eq (small : a < 256) (small' : b < 256) : UInt8.ofNat a = UInt8.ofNat b ↔ a = b := by
  rw [← UInt8.toNat_inj, UInt8.toNat_ofNat_of_lt' small, UInt8.toNat_ofNat_of_lt' small']

theorem cons_byte_lt (small : a < 256) (small' : b < 256) :
    UInt8.ofNat a :: x < UInt8.ofNat b :: y ↔ a < b ∨ a = b ∧ x < y := by
  rw [List.cons_lt_cons_iff, byte_lt small small', byte_eq small small']

theorem encoded_lt (less : c < d) (x y : List UInt8) :
    String.utf8EncodeChar c ++ x < String.utf8EncodeChar d ++ y := by
  have lower : c.toNat < d.toNat := less
  have valid : d.toNat < 0xD800 ∨ 0xDFFF < d.toNat ∧ d.toNat < 0x110000 := d.valid
  have form : ∀ e : Char, String.utf8EncodeChar e = _ := fun e => String.utf8EncodeChar.eq_def e
  rw [form c, form d]
  simp only [Char.toNat_val]
  generalize c.toNat = n at *
  generalize d.toNat = m at *
  -- each further byte holds six bits, so the parts above it are those of the byte before
  have parts : ∀ k : Nat, k / 64 / 64 = k / 4096 ∧ k / 4096 / 64 = k / 262144 := fun k =>
    ⟨Nat.div_div_eq_div_mul k 64 64, Nat.div_div_eq_div_mul k 4096 64⟩
  have low := parts n
  have high := parts m
  have below : n / 64 ≤ m / 64 ∧ n / 4096 ≤ m / 4096 ∧ n / 262144 ≤ m / 262144 := by omega
  have few : n / 262144 % 8 = n / 262144 ∧ m / 262144 % 8 = m / 262144 := by omega
  split_ifs
  all_goals
    simp only [List.cons_append, List.nil_append]
    repeat rw [cons_byte_lt (by omega) (by omega)]
    omega

theorem encoded_ne_nil (c : Char) : String.utf8EncodeChar c ≠ [] := by
  rw [← List.length_pos_iff, String.length_utf8EncodeChar]
  exact c.utf8Size_pos

theorem flatMap_lt (less : cs < ds) :
    cs.flatMap String.utf8EncodeChar < ds.flatMap String.utf8EncodeChar := by
  induction cs generalizing ds with
  | nil =>
    cases ds with
    | nil => exact absurd less (List.lt_irrefl _)
    | cons d ds =>
      rw [List.flatMap_nil, List.flatMap_cons]
      obtain ⟨first, rest, same⟩ := List.exists_cons_of_ne_nil (encoded_ne_nil d)
      rw [same]
      exact List.nil_lt_cons _ _
  | cons c cs ih =>
    cases ds with
    | nil => cases less
    | cons d ds =>
      rw [List.flatMap_cons, List.flatMap_cons]
      rcases List.cons_lt_cons_iff.mp less with lower | ⟨rfl, tail⟩
      · exact encoded_lt lower _ _
      · exact List.append_left_lt (ih tail)

theorem lt_iff_bytes (s t : String) : s < t ↔ bytes s < bytes t := by
  have forward : ∀ {s t : String}, s < t → bytes s < bytes t := by
    intro s t less
    rw [bytes_eq, bytes_eq]
    exact flatMap_lt (String.lt_iff.mp less)
  refine ⟨forward, fun less => ?_⟩
  rcases lt_trichotomy s t with before | rfl | after
  · exact before
  · exact absurd less (List.lt_irrefl _)
  · exact absurd (List.lt_trans less (forward after)) (List.lt_irrefl _)

theorem bytes_inj {s t : String} (same : bytes s = bytes t) : s = t := by
  rcases lt_trichotomy s t with before | equal | after
  · exact absurd ((lt_iff_bytes s t).mp before) (same ▸ List.lt_irrefl _)
  · exact equal
  · exact absurd ((lt_iff_bytes t s).mp after) (same ▸ List.lt_irrefl _)

def byBytes {α : Type} (entries : List (String × α)) : List (String × α) :=
  entries.mergeSort fun a b => decide (bytes a.1 ≤ bytes b.1)

theorem byBytes_perm {α : Type} (entries : List (String × α)) : (byBytes entries).Perm entries :=
  List.mergeSort_perm entries _

theorem keyed_eq_byBytes {α : Type} {entries : List (String × α)}
    (distinct : (entries.map (·.1)).Nodup) : keyed entries = byBytes entries := by
  have sorted : (byBytes entries).Pairwise fun a b => decide (bytes a.1 ≤ bytes b.1) = true := by
    apply List.pairwise_mergeSort
    · intro a b c first second
      rw [decide_eq_true_eq] at first second ⊢
      exact List.le_trans first second
    · intro a b
      simpa using List.le_total (bytes a.1) (bytes b.1)
  have ordered : (keyed entries).Pairwise fun a b => decide (bytes a.1 ≤ bytes b.1) = true :=
    (keyed_ordered entries).imp fun before => by
      simpa using List.le_of_lt ((lt_iff_bytes _ _).mp before)
  have perm := byBytes_perm entries
  refine List.Perm.eq_of_pairwise ?_ ordered sorted ((keyed_perm distinct).trans perm.symm)
  intro a b here there first second
  have same : a.1 = b.1 :=
    bytes_inj (List.le_antisymm (of_decide_eq_true first) (of_decide_eq_true second))
  exact List.inj_on_of_nodup_map distinct ((keyed_perm distinct).mem_iff.mp here)
    (perm.mem_iff.mp there) same

end PinnedTree.Text
