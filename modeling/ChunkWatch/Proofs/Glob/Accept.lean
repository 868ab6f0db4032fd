import ChunkWatch.Glob.Basic
import ChunkWatch.Proofs.Path.Spelling

namespace ChunkWatch

namespace Bytes

theorem dropPrefix?_eq_some {s t back : Bytes} : dropPrefix? t s = some back ↔ s = t ++ back := by
  induction t generalizing s with
  | nil => simp [dropPrefix?]
  | cons b t ih =>
    cases s with
    | nil => simp [dropPrefix?]
    | cons c s =>
      rw [dropPrefix?]
      split
      next h => simp [ih, h]
      next h => simp [Ne.symm h]

end Bytes

namespace Glob

open Bytes (join)

variable {k : Bytes → Bool} {s : Bytes} {ts : List Token} {names : List Bytes}

theorem withinName_iff :
    withinName k s ↔ ∃ front back, s = front ++ back ∧ slash ∉ front ∧ k back := by
  induction s with
  | nil => simp [withinName]
  | cons b s ih =>
    rw [withinName, Bool.or_eq_true, Bool.and_eq_true, ih, bne_iff_ne]
    constructor
    · rintro (hk | ⟨hb, front, back, rfl, hfront, hk⟩)
      · exact ⟨[], b :: s, rfl, List.not_mem_nil, hk⟩
      · exact ⟨b :: front, back, rfl, by simp [hfront, Ne.symm hb], hk⟩
    · rintro ⟨_ | ⟨c, front⟩, back, heq, hfront, hk⟩
      · exact .inl (by rwa [heq])
      · cases heq
        rw [List.mem_cons, not_or] at hfront
        exact .inr ⟨Ne.symm hfront.1, front, back, rfl, hfront.2, hk⟩

theorem afterSlash_iff : afterSlash k s ↔ ∃ front back, s = front ++ slash :: back ∧ k back := by
  induction s with
  | nil => simp [afterSlash]
  | cons b s ih =>
    rw [afterSlash, Bool.or_eq_true, Bool.and_eq_true, ih, beq_iff_eq]
    constructor
    · rintro (⟨rfl, hk⟩ | ⟨front, back, rfl, hk⟩)
      · exact ⟨[], s, rfl, hk⟩
      · exact ⟨b :: front, back, rfl, hk⟩
    · rintro ⟨_ | ⟨c, front⟩, back, heq, hk⟩
      · cases heq
        exact .inl ⟨rfl, hk⟩
      · cases heq
        exact .inr ⟨front, back, rfl, hk⟩

theorem anywhere_isEmpty (s : Bytes) : anywhere List.isEmpty s := by
  induction s with
  | nil => rfl
  | cons b s ih => simp [anywhere, ih]

def literals (w : String) : List Token := w.toList.map .literal

theorem allAccept_literals {w : String} : allAccept (literals w ++ ts) k s ↔
    ∃ back, s = Bytes.ofString w ++ back ∧ allAccept ts k back := by
  rw [literals, Bytes.ofString]
  induction w.toList generalizing s with
  | nil => simp
  | cons c cs ih =>
    rw [List.map_cons, List.cons_append, allAccept, Token.accepts, Option.any_eq_true,
      List.flatMap_cons]
    constructor
    · rintro ⟨rest, hrest, hall⟩
      obtain ⟨back, rfl, hback⟩ := ih.mp hall
      exact ⟨back, by rw [Bytes.dropPrefix?_eq_some.mp hrest, List.append_assoc], hback⟩
    · rintro ⟨back, rfl, hback⟩
      exact ⟨_, Bytes.dropPrefix?_eq_some.mpr (List.append_assoc ..), ih.mpr ⟨back, rfl, hback⟩⟩

theorem allAccept_star :
    allAccept (.star :: ts) k s ↔
      ∃ front back, s = front ++ back ∧ slash ∉ front ∧ allAccept ts k back := by
  rw [allAccept, Token.accepts, withinName_iff]

theorem allAccept_deepSuffix :
    allAccept [.deepSuffix] List.isEmpty s ↔ ∃ back, s = slash :: back := by
  cases s with
  | nil => simp [allAccept, Token.accepts]
  | cons b s => simp [allAccept, Token.accepts, anywhere_isEmpty]

theorem allAccept_deepPrefix (h : ∀ n ∈ names, slash ∉ n) (hne : names ≠ []) :
    allAccept (.deepPrefix :: ts) k (join slash names) ↔
      ∃ us vs, names = us ++ vs ∧ vs ≠ [] ∧ allAccept ts k (join slash vs) := by
  rw [allAccept, Token.accepts, Bool.or_eq_true, afterSlash_iff]
  constructor
  · rintro (hall | ⟨front, back, heq, hall⟩)
    · exact ⟨[], names, rfl, hne, hall⟩
    · obtain ⟨us, vs, hnames, -, hvs, -, rfl⟩ := (Bytes.join_eq_append_iff h hne).mp heq
      exact ⟨us, vs, hnames, hvs, hall⟩
  · rintro ⟨us, vs, hnames, hvs, hall⟩
    by_cases hus : us = []
    · subst hus
      exact .inl (by rwa [hnames])
    · have hjoin := (Bytes.join_eq_append_iff h hne).mpr ⟨us, vs, hnames, hus, hvs, rfl, rfl⟩
      exact .inr ⟨_, _, hjoin, hall⟩

end Glob

end ChunkWatch
