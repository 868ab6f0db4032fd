import ChunkWatch.Extract

/-! The chunks of a tree by recursion over its nodes.  A walk is at each step as far as the
recursion would be: what it has found, and what the recursion finds on the levels that it is on. -/

namespace ChunkWatch

open Syntax (Cursor Node Tree)

namespace Syntax.Cursor

def levels (c : Cursor) : List (List Node) := (c.node :: c.later) :: c.above.map Prod.snd

def levelsBehind (c : Cursor) : List (List Node) := c.later :: c.above.map Prod.snd

end Syntax.Cursor

namespace Language

variable {l : Language} {t : Tree} {text : Bytes}

def ownChunk (l : Language) (t : Tree) (text : Bytes) (n : Node) (folded : List Annotation)
    (represented : List Nat) : List Chunk × List Nat :=
  match (l.rule? n.kind).bind (chunkOf? · t text n folded represented) with
  | some (chunk, represented) => ([chunk], represented)
  | none => ([], represented)

mutual

def chunksBelow (l : Language) (t : Tree) (text : Bytes) :
    Node → List Nat → List Chunk × List Nat
  | .node _ ns, represented => chunksAmong l t text ns [] represented

def chunksAmong (l : Language) (t : Tree) (text : Bytes) :
    List Node → List Annotation → List Nat → List Chunk × List Nat
  | [], _, represented => ([], represented)
  | n :: ns, folded, represented =>
    if n.isNamed = false then chunksAmong l t text ns folded represented
    else if n.kind ∈ l.spec.skip then chunksAmong l t text ns [] represented
    else if n.kind ∈ l.spec.fold then
      chunksAmong l t text ns (folded ++ [annotationOf t text n]) represented
    else
      let own := ownChunk l t text n folded represented
      let inside := chunksBelow l t text n own.2
      let later := chunksAmong l t text ns [] inside.2
      (own.1 ++ inside.1 ++ later.1, later.2)

end

theorem chunksBelow_eq (n : Node) (represented : List Nat) :
    chunksBelow l t text n represented = chunksAmong l t text n.children [] represented := by
  cases n with
  | node label ns => rw [chunksBelow, Node.children]

theorem addChunk_spec (n : Node) (folded : List Annotation) (f : Found) :
    (l.addChunk t text n folded f).represented = (ownChunk l t text n folded f.represented).2 ∧
    (l.addChunk t text n folded f).chunks.reverse
      = f.chunks.reverse ++ (ownChunk l t text n folded f.represented).1 := by
  rw [addChunk, ownChunk]
  cases (l.rule? n.kind).bind (chunkOf? · t text n folded f.represented) with
  | none => simp
  | some own => simp

def chunksOn (l : Language) (t : Tree) (text : Bytes) :
    List (List Node) → List (List Annotation) → List Nat → List Chunk
  | ns :: levels, folded :: buffers, represented =>
    let here := chunksAmong l t text ns folded represented
    here.1 ++ chunksOn l t text levels buffers here.2
  | _, _, _ => []

namespace Walk

def Aligned (w : Walk) : Prop := ∀ c ∈ w.cursor, w.folded.length = c.above.length

def outcome (l : Language) (t : Tree) (text : Bytes) (w : Walk) : List Chunk :=
  w.found.chunks.reverse ++
    (w.cursor.elim [] fun c => chunksOn l t text c.levels w.folded w.found.represented)

variable (l t text) in
theorem leave_spec (c : Cursor) (folded : List (List Annotation)) (represented : List Nat)
    (h : folded.length = c.above.length) :
    match leave c folded with
    | some (d, rest) => rest.length = d.above.length ∧
        chunksOn l t text d.levels rest represented
          = chunksOn l t text c.levelsBehind folded represented
    | none => chunksOn l t text c.levelsBehind folded represented = [] := by
  induction folded generalizing c with
  | nil =>
    cases hnext : c.nextSibling? with
    | none => simp [leave, hnext, chunksOn]
    | some d =>
      have hd := Cursor.nextSibling?_eq_some_iff.mp hnext
      simp only [leave, hnext, Option.map_some]
      exact ⟨by rw [hd.2, ← h], by simp [chunksOn]⟩
  | cons buffer outer ih =>
    rw [leave]
    cases hnext : c.nextSibling? with
    | some d =>
      have hd := Cursor.nextSibling?_eq_some_iff.mp hnext
      exact ⟨by rw [hd.2, h], by rw [Cursor.levels, Cursor.levelsBehind, hd.1, hd.2]⟩
    | none =>
      have hlater := Cursor.nextSibling?_eq_none_iff.mp hnext
      cases hparent : c.parent? with
      | none =>
        rw [Cursor.parent?_eq_none_iff.mp hparent] at h
        cases h
      | some d =>
        have habove := Cursor.parent?_eq_some_iff.mp hparent
        have hout : chunksOn l t text c.levelsBehind (buffer :: outer) represented
            = chunksOn l t text d.levelsBehind outer represented := by
          simp [Cursor.levelsBehind, hlater, habove, chunksOn, chunksAmong]
        rw [hout]
        cases outer with
        | nil => simp [chunksOn]
        | cons buffer' outer =>
          apply ih d
          rw [habove] at h
          exact Nat.succ.inj h

variable (l t text) in
theorem goOn_spec {c : Cursor} {folded : List (List Annotation)} (f : Found)
    (h : folded.length = c.above.length) :
    (goOn c folded f).Aligned ∧ outcome l t text (goOn c folded f)
      = f.chunks.reverse ++ chunksOn l t text c.levelsBehind folded f.represented := by
  have hleave := leave_spec l t text c folded f.represented h
  rw [goOn]
  split
  next d rest heq =>
    rw [heq] at hleave
    refine ⟨?_, by rw [← hleave.2]; rfl⟩
    intro e he
    cases he
    exact hleave.1
  next heq =>
    rw [heq] at hleave
    refine ⟨?_, by rw [hleave]; rfl⟩
    intro e he
    cases he

variable (l t text) in
/-- A visit moves what the recursion finds at a node to the walk, up to the node's children, if they
are to be entered, and the siblings behind it. -/
theorem visitNode_spec (cursor : Option Cursor) (n : Node) (ns : List Node)
    (levels : List (List Node)) (buffer : List Annotation) (outer : List (List Annotation))
    (f : Found) :
    ∃ enter buffer' f',
      visitNode l t text n ⟨cursor, buffer :: outer, f⟩ = (enter, buffer' :: outer, f') ∧
      f.chunks.reverse ++ chunksOn l t text ((n :: ns) :: levels) (buffer :: outer) f.represented
        = f'.chunks.reverse ++ chunksOn l t text
            ((if enter then n.children else []) :: ns :: levels) ([] :: buffer' :: outer)
            f'.represented := by
  by_cases hnamed : n.isNamed
  · by_cases hskip : n.kind ∈ l.spec.skip
    · refine ⟨false, [], f, by simp [visitNode, visit, hnamed, hskip], ?_⟩
      simp [chunksOn, chunksAmong, hnamed, hskip]
    · by_cases hfold : n.kind ∈ l.spec.fold
      · refine ⟨false, buffer ++ [annotationOf t text n], f,
          by simp [visitNode, visit, hnamed, hskip, hfold], ?_⟩
        simp [chunksOn, chunksAmong, hnamed, hskip, hfold]
      · refine ⟨true, [], l.addChunk t text n buffer f,
          by simp [visitNode, visit, hnamed, hskip, hfold], ?_⟩
        simp [chunksOn, chunksAmong, hnamed, hskip, hfold, addChunk_spec, chunksBelow_eq]
  · refine ⟨false, buffer, f, by simp [visitNode, hnamed], ?_⟩
    simp [chunksOn, chunksAmong, hnamed]

theorem step?_spec {w v : Walk} (h : step? l t text w = some v) (hw : w.Aligned) :
    v.Aligned ∧ outcome l t text v = outcome l t text w := by
  obtain ⟨cursor, folded, f⟩ := w
  cases cursor with
  | none => simp [step?] at h
  | some c =>
    have hc : folded.length = c.above.length := hw c rfl
    simp only [step?, Option.map_some, Option.some.injEq] at h
    cases folded with
    | nil =>
      simp only [visitNode, Bool.false_eq_true, if_false] at h
      subst h
      obtain ⟨halign, hout⟩ := goOn_spec l t text f hc
      exact ⟨halign, by rw [hout]; rfl⟩
    | cons buffer outer =>
      obtain ⟨enter, buffer', f', hvisit, hfound⟩ :=
        visitNode_spec l t text (some c) c.node c.later (c.above.map Prod.snd) buffer outer f
      have hc' : (buffer' :: outer).length = c.above.length := hc
      rw [hvisit] at h
      split at h
      next d hd =>
        subst h
        split at hd
        next henter =>
          obtain ⟨hchildren, habove⟩ := Cursor.firstChild?_eq_some_iff.mp hd
          refine ⟨fun e he => ?_, ?_⟩
          · cases he
            rw [habove]
            exact congrArg Nat.succ hc'
          · rw [if_pos henter, hchildren] at hfound
            simp only [outcome, Option.elim_some, Cursor.levels, habove, List.map_cons]
            exact hfound.symm
        · cases hd
      next hd =>
        subst h
        obtain ⟨halign, hout⟩ := goOn_spec l t text f' hc'
        have hnone : (if enter then c.node.children else []) = [] := by
          split
          next henter =>
            rw [if_pos henter] at hd
            exact Cursor.firstChild?_eq_none_iff.mp hd
          · rfl
        refine ⟨halign, hout.trans ?_⟩
        rw [hnone] at hfound
        exact hfound.symm

theorem start_aligned (root : Node) : (start root).Aligned := by
  intro c hc
  have habove := (Cursor.firstChild?_eq_some_iff.mp hc).2
  rw [habove]
  rfl

theorem start_remaining (root : Node) : (start root).remaining < root.size := by
  rw [remaining, start]
  cases h : (Cursor.ofRoot root).firstChild? with
  | none =>
    rw [Option.elim_none, Node.size_eq]
    exact Nat.zero_lt_succ _
  | some c => exact Cursor.firstChild?_remaining h

theorem start_outcome (root : Node) :
    outcome l t text (start root) = (chunksBelow l t text root []).1 := by
  rw [outcome, start]
  cases h : (Cursor.ofRoot root).firstChild? with
  | none =>
    have hchildren : root.children = [] := Cursor.firstChild?_eq_none_iff.mp h
    simp [chunksBelow_eq, hchildren, chunksAmong]
  | some c =>
    obtain ⟨hchildren, habove⟩ := Cursor.firstChild?_eq_some_iff.mp h
    have hroot : root.children = c.node :: c.later := hchildren
    simp [chunksBelow_eq, hroot, Cursor.levels, chunksOn]

inductive Steps (l : Language) (t : Tree) (text : Bytes) : Nat → Walk → Walk → Prop
  | refl : Steps l t text 0 w w
  | step : step? l t text w = some v → Steps l t text k v u → Steps l t text (k + 1) w u

variable (l t text) in
theorem run_steps (w : Walk) :
    ∃ k ≤ w.remaining, Steps l t text k w (run l t text w) ∧ (run l t text w).cursor = none := by
  induction w using run.induct l t text with
  | case1 w h =>
    rw [run, h]
    refine ⟨0, Nat.zero_le _, .refl, ?_⟩
    rwa [step?, Option.map_eq_none_iff] at h
  | case2 w v h ih =>
    obtain ⟨k, hk, hsteps, hend⟩ := ih
    rw [run, h]
    exact ⟨k + 1, Nat.lt_of_le_of_lt hk (remaining_step h), .step h hsteps, hend⟩

theorem Steps.outcome_eq {w v : Walk} {k : Nat} (h : Steps l t text k w v) (hw : w.Aligned) :
    outcome l t text v = outcome l t text w := by
  induction h with
  | refl => rfl
  | step h _ ih =>
    obtain ⟨halign, hout⟩ := step?_spec h hw
    rw [ih halign, hout]

end Walk

/-- The walk of a tree ends after fewer steps than the tree has nodes, and its chunks are those of
the recursion. -/
theorem extract_eq_chunksBelow (l : Language) (t : Tree) (text : Bytes) :
    (∃ k < t.root.size, ∃ w, Walk.Steps l t text k (.start t.root) w ∧ w.cursor = none ∧
      w.found.chunks.reverse = (chunksBelow l t text t.root []).1) ∧
    l.extract t text = (chunksBelow l t text t.root []).1 := by
  obtain ⟨k, hk, hsteps, hend⟩ := Walk.run_steps l t text (.start t.root)
  have hout : (Walk.run l t text (.start t.root)).found.chunks.reverse
      = (chunksBelow l t text t.root []).1 := by
    rw [← Walk.start_outcome, ← hsteps.outcome_eq (Walk.start_aligned t.root), Walk.outcome, hend]
    simp
  exact ⟨⟨k, Nat.lt_of_le_of_lt hk (Walk.start_remaining t.root), _, hsteps, hend, hout⟩, hout⟩

end Language

end ChunkWatch
