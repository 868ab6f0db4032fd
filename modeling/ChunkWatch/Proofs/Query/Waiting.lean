import ChunkWatch.Proofs.Query.Captures

/-! States that wait.  As long as nothing has been captured, the states of one program wait at
different steps, and none of them drops or outdoes another one.  The first of them to capture a node
and be done with that is the first match. -/

namespace ChunkWatch.Query

open Syntax (Node)

variable {q : Program} {p : Place} {n : Node}

namespace State

def waiting (i : Nat) : State := ⟨0, i, 0, [], false, false, false⟩

def calm (s : State) : State := { s with outdone := false }

structure Captured (q : Program) (d : State) : Prop where
  done : d.isDone [q]
  start : d.start = 0
  pattern : d.pattern = 0
  captures : d.captures ≠ []
  calm : d.outdone = false

def outdo (s t : State) : State :=
  { t with outdone := t.outdone || (contain s.captures t.captures).1 }

theorem against_eq {s : State} {ts : List State}
    (h : ∀ t ∈ ts, s.start = t.start ∧ s.pattern = t.pattern ∧ s.step ≠ t.step) :
    s.against ts = (some { s with
        outdone := s.outdone || ts.any fun t => (contain s.captures t.captures).2 },
      ts.map s.outdo) := by
  induction ts generalizing s with
  | nil => simp [against]
  | cons t ts ih =>
    obtain ⟨⟨hstart, hpattern, hstep⟩, hts⟩ := List.forall_mem_cons.mp h
    rw [against, if_neg (by simp [hstart, hpattern])]
    dsimp only
    rw [if_neg (by simp [hstep]), if_neg (by simp [hstep])]
    have hrest := ih (s := { s with outdone := s.outdone || (contain s.captures t.captures).2 }) hts
    rw [hrest, List.any_cons, Bool.or_assoc]
    rfl

end State

theorem contain_nil_left {cs : Captures} (h : cs ≠ []) : contain [] cs = (false, true) := by
  obtain ⟨c, cs, rfl⟩ := List.exists_cons_of_ne_nil h
  rw [contain]

theorem contain_nil_right {cs : Captures} (h : cs ≠ []) : contain cs [] = (true, false) := by
  obtain ⟨c, cs, rfl⟩ := List.exists_cons_of_ne_nil h
  rw [contain]

/-- States of one program at different steps, of which those that are done are the only ones that
have captured anything, and no two of them are. -/
structure Tidy (qs : List Program) (ss : List State) : Prop where
  apart : ss.Pairwise fun s t => s.start = t.start ∧ s.pattern = t.pattern ∧ s.step ≠ t.step ∧
    (s.captures = [] ∨ t.captures = [])
  done : ∀ s ∈ ss, s.isDone qs → s.captures ≠ [] ∧ s.outdone = false

namespace Tidy

variable {qs : List Program} {s : State} {ss : List State}

theorem outdo (h : Tidy qs (s :: ss)) : Tidy qs (ss.map s.outdo) := by
  obtain ⟨happart, hrest⟩ := List.pairwise_cons.mp h.apart
  refine ⟨List.pairwise_map.mpr hrest, ?_⟩
  intro t ht hdone
  obtain ⟨u, hu, rfl⟩ := List.mem_map.mp ht
  obtain ⟨hne, hout⟩ := h.done u (List.mem_cons_of_mem s hu) hdone
  refine ⟨hne, ?_⟩
  rw [State.outdo, hout, (happart u hu).2.2.2.resolve_right hne, contain_nil_left hne]
  rfl

theorem settle (h : Tidy qs ss) :
    (settle qs ss).1.map State.calm = (ss.filter fun s => !s.isDone qs).map State.calm ∧
      (Query.settle qs ss).2 = (ss.filter (·.isDone qs)).map State.toMatch := by
  induction hn : ss.length generalizing ss with
  | zero =>
    rw [List.length_eq_zero_iff.mp hn, Query.settle]
    exact ⟨rfl, rfl⟩
  | succ n ih =>
    obtain ⟨s, ss, rfl⟩ := List.exists_cons_of_length_eq_add_one hn
    obtain ⟨happart, -⟩ := List.pairwise_cons.mp h.apart
    obtain ⟨hstates, hfound⟩ := ih h.outdo (by simpa using hn)
    rw [List.filter_map, List.map_map] at hstates hfound
    have hagainst := State.against_eq fun t ht =>
      ⟨(happart t ht).1, (happart t ht).2.1, (happart t ht).2.2.1⟩
    rw [Query.settle, hagainst]
    dsimp only
    cases hdone : s.isDone qs with
    | false =>
      rw [if_neg (by rw [State.isDone, State.step?] at hdone ⊢; simp [hdone]),
        List.filter_cons_of_pos (by simp [hdone]), List.filter_cons_of_neg (by simp [hdone]),
        List.map_cons, List.map_cons]
      exact ⟨congrArg _ hstates, hfound⟩
    | true =>
      obtain ⟨hne, hout⟩ := h.done s List.mem_cons_self hdone
      have hnot : (ss.any fun t => (contain s.captures t.captures).2) = false := by
        rw [List.any_eq_false]
        intro t ht
        rw [(happart t ht).2.2.2.resolve_left hne, contain_nil_right hne]
        exact Bool.false_ne_true
      rw [hout, hnot, if_pos ⟨by exact hdone, by simp⟩,
        List.filter_cons_of_neg (by simp [hdone]), List.filter_cons_of_pos (by simp [hdone]),
        List.map_cons]
      exact ⟨hstates, congrArg _ hfound⟩

end Tidy

def Program.StartsAtRoot (q : Program) : Prop :=
  ∀ i ∈ q.entries, ∀ t, q.step? i = some t → t.depth = 0

instance (q : Program) : Decidable q.StartsAtRoot :=
  decidable_of_iff (∀ i ∈ q.entries, ∀ t ∈ q.step? i, t.depth = 0) Iff.rfl

theorem beginnings_eq_nil (hq : q.StartsAtRoot) (hp : p.depth ≠ 0) :
    Scan.beginnings [q] p n = [] := by
  rw [List.eq_nil_iff_forall_not_mem]
  intro s hs
  rw [Scan.beginnings] at hs
  rcases List.mem_append.mp hs with hs | hs
  all_goals
    obtain ⟨x, hx, hs⟩ := List.mem_flatMap.mp hs
    simp only [List.zipIdx_singleton, List.mem_singleton] at hx
    cases hx
    simp only [Bool.false_eq_true, ↓reduceIte, List.mem_reverse] at hs
    obtain ⟨i, hi, hs⟩ := List.mem_filterMap.mp hs
    obtain ⟨t, ht, hs⟩ := Option.bind_eq_some_iff.mp hs
    split at hs
    next hat => exact hp (hat.2.1 ▸ hq i hi t ht)
    · cases hs

namespace Scan

structure Waits (is : List Nat) (s : Scan) : Prop where
  found : s.found = []
  states : s.states.map State.calm = is.map State.waiting

variable {s : Scan} {is js ks : List Nat}

theorem not_isDone_waiting {i : Nat} (h : (q.step? i).isSome) :
    (State.waiting i).isDone [q] = false := by
  obtain ⟨t, ht⟩ := Option.isSome_iff_exists.mp h
  rw [State.isDone, show (State.waiting i).step? [q] = q.step? i from rfl, ht]
  rfl

theorem tidy_waiting (hnodup : is.Nodup) (hin : ∀ i ∈ is, (q.step? i).isSome) :
    Tidy [q] (is.map State.waiting) where
  apart := List.pairwise_map.mpr (hnodup.imp fun hne => ⟨rfl, rfl, hne, .inl rfl⟩)
  done := by
    intro s hs hdone
    obtain ⟨i, hi, rfl⟩ := List.mem_map.mp hs
    rw [not_isDone_waiting (hin i hi)] at hdone
    cases hdone

def DownTo (q : Program) (depth : Nat) (is : List Nat) : Prop :=
  ∀ i ∈ is, ∃ t, q.step? i = some t ∧ t.depth ≤ depth

namespace DownTo

variable {depth : Nat}

theorem isSome (h : DownTo q depth is) : ∀ i ∈ is, (q.step? i).isSome := by
  intro i hi
  obtain ⟨t, ht, -⟩ := h i hi
  rw [ht]
  rfl

theorem any_eq_false (h : DownTo q depth is) :
    (is.any fun i => (q.step? i).any fun t => decide (depth < t.depth)) = false := by
  rw [List.any_eq_false]
  intro i hi
  obtain ⟨t, ht, hle⟩ := h i hi
  simpa [ht] using hle

theorem filter_eq_self (h : DownTo q depth is) :
    (is.filter fun i => (q.step? i).any fun t => decide (t.depth ≤ depth)) = is := by
  refine List.filter_eq_self.mpr fun i hi => ?_
  obtain ⟨t, ht, hle⟩ := h i hi
  simpa [ht] using hle

theorem subset (h : DownTo q depth is) (hjs : js ⊆ is) : DownTo q depth js :=
  fun i hi => h i (hjs hi)

theorem mono {d : Nat} (h : DownTo q depth is) (hd : depth ≤ d) : DownTo q d is := by
  intro i hi
  obtain ⟨t, ht, hle⟩ := h i hi
  exact ⟨t, ht, Nat.le_trans hle hd⟩

end DownTo

theorem filter_isDone_waiting (hin : ∀ i ∈ is, (q.step? i).isSome) :
    (is.map State.waiting).filter (·.isDone [q]) = [] := by
  refine List.filter_eq_nil_iff.mpr fun s hs => ?_
  obtain ⟨i, hi, rfl⟩ := List.mem_map.mp hs
  simp [not_isDone_waiting (hin i hi)]

theorem tidy_captured {d : State} (hd : d.Captured q) (hnodup : (js ++ ks).Nodup)
    (hin : ∀ i ∈ js ++ ks, (q.step? i).isSome) :
    Tidy [q] (js.map State.waiting ++ d :: ks.map State.waiting) := by
  have hwaiting := tidy_waiting hnodup hin
  rw [List.map_append] at hwaiting
  constructor
  · refine (List.pairwise_middle fun {s t} h => ?_).mpr
      (List.pairwise_cons.mpr ⟨?_, hwaiting.apart⟩)
    · exact ⟨h.1.symm, h.2.1.symm, h.2.2.1.symm, h.2.2.2.symm⟩
    · rw [← List.map_append]
      intro t ht
      obtain ⟨i, hi, rfl⟩ := List.mem_map.mp ht
      refine ⟨hd.start, hd.pattern, fun hstep => ?_, .inr rfl⟩
      have hdone := hd.done
      rw [State.isDone, State.step?, hd.pattern, hstep] at hdone
      obtain ⟨u, hu⟩ := Option.isSome_iff_exists.mp (hin i hi)
      simp [State.waiting, hu] at hdone
  · intro s hs hdone
    rcases List.mem_append.mp hs with hs | hs
    · exact hwaiting.done s (List.mem_append_left _ hs) hdone
    · rcases List.mem_cons.mp hs with rfl | hs
      · exact ⟨hd.captures, hd.calm⟩
      · exact hwaiting.done s (List.mem_append_right _ hs) hdone

theorem enter_of_waits (hq : q.StartsAtRoot) (hp : p.depth ≠ 0) (hs : s.Waits is) :
    s.enter [q] p n = ⟨(settle [q] ((is.map State.waiting).flatMap (·.meet [q] p n))).1,
      (settle [q] ((is.map State.waiting).flatMap (·.meet [q] p n))).2⟩ := by
  have hcalm : s.states.flatMap (·.meet [q] p n) =
      (is.map State.waiting).flatMap (·.meet [q] p n) := by
    rw [← hs.states, List.flatMap_map]
    rfl
  rw [enter, beginnings_eq_nil hq hp, List.foldl_nil, hs.found, hcalm]
  rfl

theorem waits_settle (hnodup : is.Nodup) (hin : ∀ i ∈ is, (q.step? i).isSome) :
    Waits is ⟨(settle [q] (is.map State.waiting)).1, (settle [q] (is.map State.waiting)).2⟩ := by
  obtain ⟨hstates, hfound⟩ := (tidy_waiting hnodup hin).settle
  rw [filter_isDone_waiting hin] at hfound
  refine ⟨hfound, hstates.trans ?_⟩
  rw [List.filter_eq_self.mpr, List.map_map]
  · rfl
  · intro t ht
    obtain ⟨i, hi, rfl⟩ := List.mem_map.mp ht
    rw [not_isDone_waiting (hin i hi)]
    rfl

theorem waits_enter (hq : q.StartsAtRoot) (hp : p.depth ≠ 0) (hs : s.Waits is)
    (hmeet : (is.map State.waiting).flatMap (·.meet [q] p n) = js.map State.waiting)
    (hnodup : js.Nodup) (hin : ∀ i ∈ js, (q.step? i).isSome) : (s.enter [q] p n).Waits js := by
  rw [enter_of_waits hq hp hs, hmeet]
  exact waits_settle hnodup hin

theorem found_enter (hq : q.StartsAtRoot) (hp : p.depth ≠ 0) (hs : s.Waits is) {d : State}
    (hmeet : (is.map State.waiting).flatMap (·.meet [q] p n) =
      js.map State.waiting ++ d :: ks.map State.waiting) (hd : d.Captured q)
    (hnodup : (js ++ ks).Nodup) (hin : ∀ i ∈ js ++ ks, (q.step? i).isSome) :
    (s.enter [q] p n).found = [d.toMatch] := by
  obtain ⟨hjs, hks⟩ := List.forall_mem_append.mp hin
  rw [enter_of_waits hq hp hs, hmeet, (tidy_captured hd hnodup hin).settle.2, List.filter_append,
    filter_isDone_waiting hjs, List.filter_cons_of_pos hd.done, filter_isDone_waiting hks]
  rfl

theorem found_leave (qs : List Program) (depth : Nat) (s : Scan) :
    s.found <+: (s.leave qs depth).found :=
  List.prefix_append ..

theorem found_prefix_node_and_forest (qs : List Program) :
    (∀ n : Node, ∀ p s, (s.enter qs p n).found <+: (node qs p n s).found) ∧
      ∀ ns : List Node, ∀ depth parent s, s.found <+: (forest qs depth parent ns s).found := by
  apply Node.induction_with_forest
  case node =>
    intro l ns ih p s
    rw [node]
    refine List.IsPrefix.trans ?_ (found_leave ..)
    split
    · exact ih _ _ _
    · exact List.prefix_rfl
  case nil =>
    intro depth parent s
    refine ⟨[], ?_⟩
    rw [forest, List.append_nil]
  case cons =>
    intro n ns ihn ihns depth parent s
    rw [forest]
    exact ((List.prefix_append ..).trans (ihn _ s)).trans (ihns _ _ _)

theorem waits_leave (hs : s.Waits is) (hin : ∀ i ∈ is, (q.step? i).isSome) (depth : Nat) :
    (s.leave [q] depth).Waits
      (is.filter fun i => (q.step? i).any fun t => decide (t.depth ≤ depth)) := by
  have hfilter (P : State → Bool) (hP : ∀ t, P t.calm = P t) :
      (s.states.filter P).map State.calm =
        (is.filter fun i => P (.waiting i)).map State.waiting := by
    have hcalm : P ∘ State.calm = P := funext hP
    have hstates := List.filter_map (f := State.calm) (p := P) (l := s.states)
    rw [hcalm, hs.states, List.filter_map] at hstates
    exact hstates.symm
  rw [leave]
  constructor
  · have hnone : (s.states.filter fun t =>
        t.isDone [q] && (depth < t.start || depth == 0)) = [] := by
      rw [← List.map_eq_nil_iff, hfilter _ fun t => rfl, List.map_eq_nil_iff,
        List.filter_eq_nil_iff]
      intro i hi
      simp [not_isDone_waiting (hin i hi)]
    dsimp only
    rw [hs.found, hnone]
    rfl
  · refine (hfilter _ fun t => rfl).trans (congrArg _ (List.filter_congr fun i hi => ?_))
    obtain ⟨t, ht⟩ := Option.isSome_iff_exists.mp (hin i hi)
    rw [show (State.waiting i).step? [q] = q.step? i from rfl, ht, Option.any_some]
    simp [State.waiting]

theorem wantsBelow_eq (hs : s.Waits is) (depth : Nat) : s.wantsBelow [q] depth =
    is.any fun i => (q.step? i).any fun t => decide (depth < t.depth) := by
  have hany := List.any_map (f := State.calm) (l := s.states)
    (p := fun t => (t.step? [q]).any fun u => decide (depth < t.start + u.depth))
  rw [hs.states, List.any_map] at hany
  refine hany.symm.trans (congrArg _ (funext fun i => ?_))
  simp only [Function.comp_apply, State.waiting, Nat.zero_add]
  rfl

theorem downTo_leave {depth : Nat} (hs : s.Waits is) (his : DownTo q depth is) :
    (s.leave [q] depth).Waits is := by
  have hleft := waits_leave hs his.isSome depth
  rwa [his.filter_eq_self] at hleft

theorem waits_node (hq : q.StartsAtRoot) (hp : p.depth ≠ 0) (hs : s.Waits is)
    (hmeet : (is.map State.waiting).flatMap (·.meet [q] p n) = js.map State.waiting)
    (hnodup : js.Nodup) (hjs : DownTo q p.depth js) : (node [q] p n s).Waits js := by
  have hentered := waits_enter hq hp hs hmeet hnodup hjs.isSome
  have hbelow : (s.enter [q] p n).wantsBelow [q] p.depth = false := by
    rw [wantsBelow_eq hentered, hjs.any_eq_false]
  cases n with
  | node l ns =>
    rw [node, hbelow]
    exact downTo_leave hentered hjs

def First (c : String × Node) (s : Scan) : Prop := s.found.head? = some ⟨0, [c]⟩

theorem First.mono {c : String × Node} {t : Scan} (h : s.First c) (k : s.found <+: t.found) :
    t.First c := by
  obtain ⟨rest, hrest⟩ := k
  rw [First] at h ⊢
  rw [← hrest, List.head?_append, h]
  rfl

/-- What a scan comes to: the first match captures a node, if there is one, and otherwise it still
waits in some way. -/
def Finds (name : String) (waits : Scan → Prop) (s : Scan) : Option Node → Prop
  | some n => s.First (name, n)
  | none => waits s

theorem Finds.imp {name : String} {W V : Scan → Prop} {r : Option Node} (h : Finds name W s r)
    (hW : W s → V s) : Finds name V s r := by
  cases r with
  | some n => exact h
  | none => exact hW h

/-- The states wait at some steps, or only at those of fewer, and then no later sibling has anything
for the others. -/
def Lives (f : Node → Option Node) (is js : List Nat) (later : List Node) (s : Scan) : Prop :=
  s.Waits is ∨ s.Waits js ∧ ∀ n ∈ later, f n = none

theorem finds_forest {f : Node → Option Node} {name : String} {depth : Nat} {parent : Node}
    (hnode : ∀ (n : Node) (ns : List Node) (s : Scan), s.Waits is →
      Finds name (Lives f is js ns) (node [q] ⟨depth, some parent, n.label.field, ns⟩ n s) (f n))
    (hrest : ∀ (n : Node) (ns : List Node) (s : Scan), s.Waits js → f n = none →
      (node [q] ⟨depth, some parent, n.label.field, ns⟩ n s).Waits js) (ns : List Node) :
    ∀ s : Scan, Lives f is js ns s →
      Finds name (Lives f is js []) (forest [q] depth parent ns s) (ns.findSome? f) := by
  induction ns with
  | nil =>
    intro s hs
    rw [forest]
    exact hs
  | cons n ns ih =>
    intro s hs
    rw [forest]
    rcases hs with hs | ⟨hs, hnone⟩
    · have hfinds := hnode n ns s hs
      cases hn : f n with
      | none =>
        rw [List.findSome?_cons_of_isNone (by rw [hn]; rfl)]
        rw [hn] at hfinds
        exact ih _ hfinds
      | some m =>
        rw [hn] at hfinds
        rw [List.findSome?_cons, hn]
        exact hfinds.mono ((found_prefix_node_and_forest [q]).2 ..)
    · obtain ⟨hn, hns⟩ := List.forall_mem_cons.mp hnone
      rw [List.findSome?_cons, hn]
      exact ih _ (.inr ⟨hrest n ns s hs hn, hns⟩)

theorem waits_nil_node (hq : q.StartsAtRoot) (hp : p.depth ≠ 0) (hs : s.Waits []) :
    (node [q] p n s).Waits [] :=
  waits_node hq hp hs rfl List.nodup_nil (List.forall_mem_nil _)

def root : Place := ⟨0, none, none, []⟩

theorem waits_root {t : Step} (hentries : q.entries = [0]) (ht : q.step? 0 = some t)
    (hwild : t.selector.isWildcard = false) (hdepth : t.depth = 0) (hfield : t.field = none)
    (hcaptures : t.captures = []) (haccepts : t.accepts root n)
    (hsplit : State.split q (q.length + 1) ⟨0, 1, 0, [], (q.step? 1).any t.adjoins, false, false⟩ =
      is.map State.waiting)
    (hnodup : is.Nodup) (hin : ∀ i ∈ is, (q.step? i).isSome) :
    (Scan.start.enter [q] root n).Waits is := by
  have hselects : t.selector.selects n := by
    simp only [Step.accepts, Bool.and_eq_true] at haccepts
    exact haccepts.1.1.1
  have hbegins : beginnings [q] root n = [⟨0, 0, 0, [], true, false, false⟩] := by
    simp [beginnings, hentries, ht, hwild, hdepth, hfield, hselects, root]
  have hadvance : State.advance q ⟨0, 0, 0, [], true, false, false⟩ t root n =
      ⟨0, 1, 0, [], (q.step? 1).any t.adjoins, false, false⟩ := by
    simp [State.advance, State.capturesWith, hcaptures]
  have hmeet : State.meet [q] root n ⟨0, 0, 0, [], true, false, false⟩ = is.map State.waiting := by
    rw [← hsplit, ← hadvance]
    simp [State.meet, State.step?, ht, hdepth, haccepts, show root.depth = 0 from rfl]
  have hstates : [State.mk 0 0 0 [] true false false].flatMap (·.meet [q] root n) =
      is.map State.waiting := by
    rw [List.flatMap_singleton, hmeet]
  rw [enter, hbegins, List.foldl_cons, List.foldl_nil, show insert _ start.states = [_] from rfl,
    hstates]
  exact waits_settle hnodup hin

/-- If a state comes to wait for a node below this one, what is found at this one is what is found
among its children. -/
theorem finds_node {W : Scan → Prop} {name : String} {r : Option Node}
    (hentered : (s.enter [q] p n).Waits is)
    (hbelow : ∃ i ∈ is, ∃ t, q.step? i = some t ∧ p.depth < t.depth)
    (hforest : Finds name W (forest [q] (p.depth + 1) n n.children (s.enter [q] p n)) r)
    (hleave : ∀ s, W s → (s.leave [q] p.depth).Waits js) :
    Finds name (Waits js) (node [q] p n s) r := by
  have hwants : (s.enter [q] p n).wantsBelow [q] p.depth := by
    rw [wantsBelow_eq hentered, List.any_eq_true]
    obtain ⟨i, hi, t, ht, hdepth⟩ := hbelow
    refine ⟨i, hi, ?_⟩
    rw [ht, Option.any_some]
    exact decide_eq_true hdepth
  have hnode : node [q] p n s =
      (forest [q] (p.depth + 1) n n.children (s.enter [q] p n)).leave [q] p.depth := by
    cases n with
    | node l ns =>
      rw [node, hwants]
      rfl
  rw [hnode]
  cases r with
  | some m => exact First.mono hforest (found_leave ..)
  | none => exact hleave _ hforest

end Scan

namespace State

variable {i : Nat} {t : Step}

theorem meet_waiting_elsewhere (ht : q.step? i = some t) (hdepth : t.depth ≠ p.depth) :
    (waiting i).meet [q] p n = [waiting i] := by
  simp [meet, waiting, State.step?, ht, hdepth]

theorem meet_waiting_passed (ht : q.step? i = some t) (hdepth : t.depth = p.depth)
    (hno : t.accepts p n = false) :
    (waiting i).meet [q] p n = if t.mayMatchLater p n then [waiting i] else [] := by
  simp [meet, waiting, State.step?, ht, hdepth, hno]

theorem meet_waiting_accepted (ht : q.step? i = some t) (hdepth : t.depth = p.depth)
    (haccepts : t.accepts p n) : (waiting i).meet [q] p n =
      split q (q.length + 1) ((waiting i).advance q t p n) ++
        if t.mayMatchLater p n && (q.captures i || q.fallible i) then [waiting i] else [] := by
  simp [meet, waiting, State.step?, ht, hdepth, haccepts]

end State

def Program.query (q : Program) (wanted : String) : Query := ⟨[(q, [])], wanted⟩

theorem firstCapture?_eq {name : String} {text : Bytes} {is : List Nat} {r : Option Node}
    (h : Scan.Finds name (Scan.Waits is) (Scan.node [q] Scan.root n Scan.start) r) :
    (q.query name).firstCapture? text n = r := by
  rw [firstCapture?, Program.query, List.map_singleton, matchesAt, ← Scan.root]
  cases r with
  | none =>
    rw [h.found]
    rfl
  | some x =>
    obtain ⟨ms, hms⟩ := List.head?_eq_some_iff.mp h
    rw [hms, List.filter_cons_of_pos (by rfl), List.findSome?_cons]
    simp [Predicate.nodesOf]

end ChunkWatch.Query
