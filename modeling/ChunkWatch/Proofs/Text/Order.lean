import Mathlib.Data.List.Lex
import ChunkWatch.Text.Order

namespace ChunkWatch

theorem Bytes.ofString_injective : Function.Injective Bytes.ofString := by
  intro s t h
  rw [← String.toByteArray_inj, ← String.utf8Encode_toList, ← String.utf8Encode_toList]
  exact congrArg List.toByteArray h

namespace Text

variable {s t u : String} {ss : List String}

def key (s : String) : List Nat := (Bytes.ofString s).map UInt8.toNat

theorem key_injective : Function.Injective key :=
  (List.map_injective_iff.mpr fun _ _ => UInt8.toNat_inj.mp).comp Bytes.ofString_injective

theorem before_iff : before s t ↔ key s < key t := by simp [before, key]

theorem before_trans (h : before s t) (k : before t u) : before s u :=
  before_iff.mpr (lt_trans (before_iff.mp h) (before_iff.mp k))

theorem ne_of_before (h : before s t) : s ≠ t := by
  rintro rfl
  exact lt_irrefl _ (before_iff.mp h)

theorem before_of_not_before (h : ¬before s t) (k : s ≠ t) : before t s := by
  rw [before_iff] at h ⊢
  exact lt_of_le_of_ne (not_lt.mp h) (key_injective.ne k.symm)

def Ascending (ss : List String) : Prop := ss.Pairwise fun s t => before s t

theorem Ascending.nodup (h : Ascending ss) : ss.Nodup := h.imp ne_of_before

theorem mem_insertInto : t ∈ insertInto s ss ↔ t = s ∨ t ∈ ss := by
  induction ss with
  | nil => simp [insertInto]
  | cons u ss ih =>
    simp only [insertInto]
    split
    next h =>
      subst h
      simp
    next =>
      split
      · exact List.mem_cons
      · rw [List.mem_cons, ih, List.mem_cons, or_left_comm]

theorem Ascending.insertInto (h : Ascending ss) : Ascending (Text.insertInto s ss) := by
  induction ss with
  | nil => exact List.pairwise_singleton ..
  | cons u ss ih =>
    obtain ⟨hu, hss⟩ := List.pairwise_cons.mp h
    simp only [Text.insertInto]
    split
    · exact h
    next hne =>
      split
      next hs =>
        refine List.pairwise_cons.mpr ⟨fun t ht => ?_, h⟩
        rcases List.mem_cons.mp ht with rfl | ht
        · exact hs
        · exact before_trans hs (hu t ht)
      next hs =>
        refine List.pairwise_cons.mpr ⟨fun t ht => ?_, ih hss⟩
        rcases mem_insertInto.mp ht with rfl | ht
        · exact before_of_not_before hs hne
        · exact hu t ht

theorem mem_sorted : t ∈ sorted ss ↔ t ∈ ss := by
  induction ss with
  | nil => rfl
  | cons s ss ih =>
    have h : t ∈ sorted (s :: ss) ↔ t = s ∨ t ∈ sorted ss := mem_insertInto
    rw [h, ih, List.mem_cons]

theorem ascending_sorted (ss : List String) : Ascending (sorted ss) := by
  induction ss with
  | nil => exact List.Pairwise.nil
  | cons s ss ih => exact ih.insertInto

end Text

end ChunkWatch
