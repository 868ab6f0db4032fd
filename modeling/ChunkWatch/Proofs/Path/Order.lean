import Mathlib.Data.List.Lex
import ChunkWatch.Path

namespace ChunkWatch

theorem Component.key_injective : Function.Injective Component.key := by
  intro a b h
  cases a <;> cases b <;> simp [Component.key] at h ⊢
  exact List.map_injective_iff.mpr (fun _ _ => UInt8.toNat_inj.mp) h

namespace Path

theorem same_iff {p q : Path} : p.same q ↔ p.components = q.components := by
  simp [same]

@[simp] theorem same_refl (p : Path) : p.same p := same_iff.mpr rfl

theorem same_symm {p q : Path} (h : p.same q) : q.same p := same_iff.mpr (same_iff.mp h).symm

theorem same_trans {p q r : Path} (h : p.same q) (k : q.same r) : p.same r :=
  same_iff.mpr ((same_iff.mp h).trans (same_iff.mp k))

theorem extension?_congr {p q : Path} (h : p.same q) : p.extension? = q.extension? := by
  rw [extension?, extension?, fileName?, fileName?, same_iff.mp h]

theorem startsWith_congr {p q base : Path} (h : p.same q) :
    p.startsWith base = q.startsWith base := by
  rw [startsWith, same_iff.mp h, startsWith]

theorem key_eq_iff {p q : Path} : p.key = q.key ↔ p.same q := by
  rw [same_iff]
  exact (List.map_injective_iff.mpr Component.key_injective).eq_iff

theorem before_iff {p q : Path} : p.before q ↔ p.key < q.key := by simp [before]

theorem before_trans {p q r : Path} (h : p.before q) (k : q.before r) : p.before r :=
  before_iff.mpr (lt_trans (before_iff.mp h) (before_iff.mp k))

theorem not_same_of_before {p q : Path} (h : p.before q) : ¬p.same q := by
  intro k
  have h := before_iff.mp h
  rw [key_eq_iff.mpr k] at h
  exact lt_irrefl _ h

theorem before_of_not_before {p q : Path} (h : ¬p.before q) (k : ¬p.same q) : q.before p := by
  rw [before_iff] at h ⊢
  rw [← key_eq_iff] at k
  exact lt_of_le_of_ne (not_lt.mp h) (Ne.symm k)

theorem isIn_iff {p : Path} {ps : List Path} : p.isIn ps ↔ ∃ q ∈ ps, p.same q := by
  simp [isIn]

theorem isIn_of_mem {p : Path} {ps : List Path} (h : p ∈ ps) : p.isIn ps :=
  isIn_iff.mpr ⟨p, h, same_refl p⟩

@[simp] theorem not_isIn_nil (p : Path) : ¬p.isIn [] := by simp [isIn]

@[simp] theorem isIn_cons {p q : Path} {ps : List Path} :
    p.isIn (q :: ps) ↔ p.same q ∨ p.isIn ps := by simp [isIn]

@[simp] theorem isIn_append {p : Path} {ps qs : List Path} :
    p.isIn (ps ++ qs) ↔ p.isIn ps ∨ p.isIn qs := by simp [isIn]

theorem isIn_of_same {p q : Path} {ps : List Path} (h : p.same q) (k : q.isIn ps) : p.isIn ps := by
  obtain ⟨r, hr, hq⟩ := isIn_iff.mp k
  exact isIn_iff.mpr ⟨r, hr, same_trans h hq⟩

@[simp] theorem isIn_insertInto {p q : Path} {ps : List Path} :
    p.isIn (q.insertInto ps) ↔ p.same q ∨ p.isIn ps := by
  induction ps with
  | nil => simp [insertInto]
  | cons r rs ih =>
    simp only [insertInto]
    split
    · simp
    · split
      next h =>
        -- The spelling that is there already stands for the new one.
        have hp : p.same q → p.same r := fun k => same_trans k h
        rw [isIn_cons]
        exact ⟨.inr, fun k => k.elim (.inl ∘ hp) id⟩
      next => simp only [isIn_cons, ih, or_left_comm]

theorem length_insertInto {p : Path} {ps : List Path} (h : ¬p.isIn ps) :
    (p.insertInto ps).length = ps.length + 1 := by
  induction ps with
  | nil => rfl
  | cons q ps ih =>
    rw [isIn_cons, not_or] at h
    rw [insertInto, if_neg h.1]
    split
    · rfl
    · rw [List.length_cons, ih h.2, List.length_cons]

def Ascending (ps : List Path) : Prop := ps.Pairwise fun p q => p.before q

theorem mem_of_mem_insertInto {p q : Path} {ps : List Path} (h : p ∈ q.insertInto ps) :
    p = q ∨ p ∈ ps := by
  induction ps with
  | nil => simpa [insertInto] using h
  | cons r rs ih =>
    simp only [insertInto] at h
    split at h
    · simpa using h
    · split at h
      · exact .inr h
      · rcases List.mem_cons.mp h with rfl | h
        · simp
        · exact (ih h).imp_right (List.mem_cons_of_mem r)

theorem Ascending.insertInto {q : Path} {ps : List Path} (h : Ascending ps) :
    Ascending (q.insertInto ps) := by
  induction ps with
  | nil => simp [Path.insertInto, Ascending]
  | cons r rs ih =>
    obtain ⟨hr, hs⟩ := List.pairwise_cons.mp h
    simp only [Path.insertInto]
    split
    next hq =>
      apply List.pairwise_cons.mpr
      refine ⟨fun p hp => ?_, h⟩
      rcases List.mem_cons.mp hp with rfl | hp
      · exact hq
      · exact before_trans hq (hr p hp)
    next hq =>
      split
      · exact h
      next hne =>
        apply List.pairwise_cons.mpr
        refine ⟨fun p hp => ?_, ih hs⟩
        rcases mem_of_mem_insertInto hp with rfl | hp
        · exact before_of_not_before hq hne
        · exact hr p hp

theorem Ascending.pairwise_not_same {ps : List Path} (h : Ascending ps) :
    ps.Pairwise fun p q => ¬p.same q :=
  h.imp not_same_of_before

def insertAll (qs ps : List Path) : List Path := qs.foldl (fun acc q => q.insertInto acc) ps

@[simp] theorem isIn_insertAll {p : Path} {qs ps : List Path} :
    p.isIn (insertAll qs ps) ↔ p.isIn qs ∨ p.isIn ps := by
  induction qs generalizing ps with
  | nil => simp [insertAll]
  | cons q qs ih =>
    have h := @ih (q.insertInto ps)
    simp only [insertAll, List.foldl_cons] at h ⊢
    rw [h]
    simp only [isIn_insertInto, isIn_cons, or_assoc, or_left_comm]

theorem mem_of_mem_insertAll {p : Path} {qs ps : List Path} (h : p ∈ insertAll qs ps) :
    p ∈ qs ∨ p ∈ ps := by
  induction qs generalizing ps with
  | nil => exact .inr h
  | cons q qs ih =>
    rcases ih h with h | h
    · exact .inl (List.mem_cons_of_mem q h)
    · rcases mem_of_mem_insertInto h with rfl | h
      · exact .inl List.mem_cons_self
      · exact .inr h

theorem Ascending.insertAll {qs ps : List Path} (h : Ascending ps) :
    Ascending (Path.insertAll qs ps) := by
  induction qs generalizing ps with
  | nil => exact h
  | cons q qs ih => exact ih h.insertInto

theorem insertAll_ne_nil {ps qs : List Path} (h : ps ≠ []) : insertAll ps qs ≠ [] := by
  obtain ⟨p, ps, rfl⟩ := List.exists_cons_of_ne_nil h
  intro hnil
  have hin : p.isIn (insertAll (p :: ps) qs) := isIn_insertAll.mpr (.inl (by simp))
  rw [hnil] at hin
  exact not_isIn_nil p hin

end Path

end ChunkWatch
