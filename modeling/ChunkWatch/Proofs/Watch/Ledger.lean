import Mathlib.Data.List.Induction
import ChunkWatch.Proofs.Path.Order

namespace ChunkWatch.Watch

inductive Record : Type
  | granted : Path → Record
  | forgotten : Path → Record
  deriving DecidableEq

namespace Record

variable {rs : List Record} {d e : Path}

/-- `d` was granted, and after that no directory was forgotten that is `d` or above it. -/
def Stands (rs : List Record) (d : Path) : Prop :=
  ∃ before g after, rs = before ++ granted g :: after ∧ d.same g ∧
    ∀ e, forgotten e ∈ after → ¬d.startsWith e

/-- Between two grants of a directory it was forgotten, or one above it. -/
def Orderly (rs : List Record) : Prop :=
  ∀ before d between g after, rs = before ++ granted d :: (between ++ granted g :: after) →
    d.same g → ∃ e, forgotten e ∈ between ∧ d.startsWith e

theorem concat_eq_append_cons {r x : Record} {before after : List Record}
    (h : rs ++ [r] = before ++ x :: after) :
    (after = [] ∧ rs = before ∧ r = x) ∨
      ∃ rest, after = rest ++ [r] ∧ rs = before ++ x :: rest := by
  rcases List.eq_nil_or_concat' after with rfl | ⟨rest, last, rfl⟩
  · obtain ⟨hrs, hr⟩ := List.append_inj' h rfl
    exact .inl ⟨rfl, hrs, (List.cons.inj hr).1⟩
  · rw [← List.cons_append, ← List.append_assoc] at h
    obtain ⟨hrs, hr⟩ := List.append_inj' h rfl
    exact .inr ⟨rest, by rw [(List.cons.inj hr).1], hrs⟩

theorem not_stands_nil (d : Path) : ¬Stands [] d := by
  rintro ⟨before, g, after, h, -⟩
  simp at h

theorem stands_concat_granted : Stands (rs ++ [granted e]) d ↔ Stands rs d ∨ d.same e := by
  constructor
  · rintro ⟨before, g, after, h, hsame, hkept⟩
    rcases concat_eq_append_cons h with ⟨-, -, hg⟩ | ⟨rest, rfl, rfl⟩
    · cases hg
      exact .inr hsame
    · exact .inl ⟨before, g, rest, rfl, hsame, fun f hf => hkept f (List.mem_append_left _ hf)⟩
  · rintro (⟨before, g, after, rfl, hsame, hkept⟩ | hsame)
    · refine ⟨before, g, after ++ [granted e], by simp, hsame, fun f hf => hkept f ?_⟩
      simpa using hf
    · exact ⟨rs, e, [], rfl, hsame, nofun⟩

theorem stands_concat_forgotten :
    Stands (rs ++ [forgotten e]) d ↔ Stands rs d ∧ ¬d.startsWith e := by
  constructor
  · rintro ⟨before, g, after, h, hsame, hkept⟩
    rcases concat_eq_append_cons h with ⟨-, -, hg⟩ | ⟨rest, rfl, rfl⟩
    · cases hg
    · exact ⟨⟨before, g, rest, rfl, hsame, fun f hf => hkept f (List.mem_append_left _ hf)⟩,
        hkept e (by simp)⟩
  · rintro ⟨⟨before, g, after, rfl, hsame, hkept⟩, he⟩
    refine ⟨before, g, after ++ [forgotten e], by simp, hsame, fun f hf => ?_⟩
    rcases List.mem_append.mp hf with hf | hf
    · exact hkept f hf
    · cases List.mem_singleton.mp hf
      exact he

theorem orderly_nil : Orderly [] := by
  intro before d between g after h
  simp at h

theorem Orderly.grant (h : Orderly rs) (k : ¬Stands rs e) : Orderly (rs ++ [granted e]) := by
  intro before d between g after heq hsame
  rw [← List.cons_append, ← List.append_assoc] at heq
  rcases concat_eq_append_cons heq with ⟨-, rfl, hg⟩ | ⟨rest, rfl, rfl⟩
  · cases hg
    by_contra hno
    refine k ⟨before, d, between, rfl, Path.same_symm hsame, fun f hf hstarts => hno ⟨f, hf, ?_⟩⟩
    rwa [Path.startsWith_congr hsame]
  · exact h before d between g rest (by simp) hsame

theorem Orderly.forget (h : Orderly rs) : Orderly (rs ++ [forgotten e]) := by
  intro before d between g after heq hsame
  rw [← List.cons_append, ← List.append_assoc] at heq
  rcases concat_eq_append_cons heq with ⟨-, -, hg⟩ | ⟨rest, rfl, rfl⟩
  · cases hg
  · exact h before d between g rest (by simp) hsame

theorem stands_map_granted {ds : List Path} : Stands (ds.map granted) d ↔ d.isIn ds := by
  induction ds using List.reverseRecOn with
  | nil => exact iff_of_false (not_stands_nil d) (Path.not_isIn_nil d)
  | append_singleton ds e ih =>
    rw [List.map_append, List.map_singleton, stands_concat_granted, ih, Path.isIn_append,
      Path.isIn_cons, or_iff_left (Path.not_isIn_nil d)]

theorem orderly_map_granted {ds : List Path} (h : ds.Pairwise fun d e => ¬d.same e) :
    Orderly (ds.map granted) := by
  induction ds using List.reverseRecOn with
  | nil => exact orderly_nil
  | append_singleton ds e ih =>
    obtain ⟨hds, -, hapart⟩ := List.pairwise_append.mp h
    rw [List.map_append, List.map_singleton]
    refine (ih hds).grant fun hstands => ?_
    obtain ⟨d, hd, hsame⟩ := Path.isIn_iff.mp (stands_map_granted.mp hstands)
    exact hapart d hd e (List.mem_singleton_self e) (Path.same_symm hsame)

end Record

end ChunkWatch.Watch
