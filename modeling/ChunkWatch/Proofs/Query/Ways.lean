import ChunkWatch.Proofs.Query.Waiting

/-! Queries that go down a tree one way or another.  Each step of a way stands for a named node of
one kind, in a field if it says so, and the node at the end of the way is captured.  Of two nodes on
a way the second is a child of the first.  What such a query captures first is what a search through
the children, and through theirs, finds first. -/

namespace ChunkWatch.Query

open Syntax (Node)

structure Slot where
  field : Option String
  kind : String
  deriving DecidableEq

def Slot.fits (t : Slot) (n : Node) : Bool :=
  n.isNamed && n.kind == t.kind && t.field.all (n.label.field == some ·)

def search : List Slot → Node → Option Node
  | [], n => some n
  | t :: ts, n => n.children.findSome? fun c => if t.fits c then search ts c else none

@[simp] theorem search_nil (n : Node) : search [] n = some n := rfl

structure Way where
  first : Slot
  rest : List Slot
  deriving DecidableEq

def Way.find (w : Way) (n : Node) : Option Node := if w.first.fits n then search w.rest n else none

def mayFillLater (field : Option String) (n : Node) (later : List Node) : Bool :=
  !later.isEmpty &&
    field.all fun f => n.label.field != some f || later.any (·.label.field == some f)

def stay (field : Option String) (n : Node) (later : List Node) (is : List Nat) : List Nat :=
  if mayFillLater field n later then is else []

def Step.start (kind : String) : Step := { selector := .kind kind, depth := 0 }

def Step.slot (depth : Nat) (t : Slot) (captures : List String) (alternative : Option Nat) : Step :=
  { selector := .kind t.kind, depth, field := t.field, captures, alternative }

def State.matched (q : Program) (name : String) (n : Node) : State :=
  ⟨0, q.length, 0, [(name, n)], false, false, false⟩

/-- From a step on, at some depth, a program goes down a way and captures the node at its end. -/
inductive Program.Leads (q : Program) (name : String) : Nat → Nat → List Slot → Prop
  | last : q.step? i = some (.slot depth t [name] a) → q.captures i →
      (∀ n, State.split q (q.length + 1) ⟨0, i + 1, 0, [(name, n)], false, false, false⟩ =
        [.matched q name n]) → q.Leads name i depth [t]
  | more : q.step? i = some (.slot depth t [] a) → q.captures i →
      State.split q (q.length + 1) (.waiting (i + 1)) = [.waiting (i + 1)] →
      q.Leads name (i + 1) (depth + 1) (u :: ts) → q.Leads name i depth (t :: u :: ts)

variable {q : Program} {name kind : String} {captures : List String} {a : Option Nat}
  {field : Option String} {t : Slot} {ts : List Slot} {d i : Nat} {n parent : Node}
  {later ns : List Node} {is js before after : List Nat} {p : Place} {s : Scan}

theorem not_fills_of_not_mayFillLater (h : mayFillLater field n later = false) :
    ∀ m ∈ later, field.all (m.label.field == some ·) = false := by
  intro m hm
  have hsome : later.isEmpty = false := List.isEmpty_eq_false_iff_exists_mem.mpr ⟨m, hm⟩
  cases field with
  | none => simp [mayFillLater, hsome] at h
  | some f =>
    simp only [mayFillLater, hsome, Option.all_some, Bool.not_false, Bool.true_and,
      Bool.or_eq_false_iff, List.any_eq_false] at h
    exact Bool.eq_false_iff.mpr (h.2 m hm)

theorem Slot.of_fits (h : t.fits n) : n.isNamed ∧ n.kind = t.kind := by
  simp only [fits, Bool.and_eq_true, beq_iff_eq] at h
  exact h.1

theorem stay_sublist (field : Option String) (n : Node) (later : List Node) (is : List Nat) :
    (stay field n later is).Sublist is := by
  rw [stay]
  split
  · exact List.Sublist.refl _
  · exact List.nil_sublist _

theorem stay_append : stay field n later (is ++ js) =
    stay field n later is ++ stay field n later js := by
  simp only [stay]
  split <;> rfl

namespace State

theorem captured_matched : (matched q name n).Captured q where
  done := by
    rw [isDone, show (matched q name n).step? [q] = q.step? q.length from rfl, Program.step?,
      List.getElem?_length]
    rfl
  start := rfl
  pattern := rfl
  captures := List.cons_ne_nil _ _
  calm := rfl

theorem meet_slot (hi : q.step? i = some (.slot d t captures a)) (hcaptures : q.captures i) :
    (waiting i).meet [q] ⟨d, some parent, n.label.field, later⟩ n =
      (if t.fits n then split q (q.length + 1)
        ⟨0, i + 1, 0, captures.map (·, n), false, false, false⟩ else []) ++
      (stay t.field n later [i]).map waiting := by
  have haccepts : (Step.slot d t captures a).accepts ⟨d, some parent, n.label.field, later⟩ n =
      t.fits n := by
    simp [Step.accepts, Step.slot, Slot.fits, Selector.selects]
  have hlater : (Step.slot d t captures a).mayMatchLater
      ⟨d, some parent, n.label.field, later⟩ n = mayFillLater t.field n later := by
    simp [Step.mayMatchLater, Step.slot, mayFillLater]
  cases hfits : t.fits n with
  | false =>
    rw [meet_waiting_passed hi rfl (haccepts.trans hfits), hlater, stay]
    split <;> rfl
  | true =>
    have hadvance : (waiting i).advance q (.slot d t captures a)
        ⟨d, some parent, n.label.field, later⟩ n =
          ⟨0, i + 1, 0, captures.map (·, n), false, false, false⟩ := by
      have hadjoins : (q.step? (i + 1)).any (Step.adjoins (.slot d t captures a)) = false := by
        cases q.step? (i + 1) <;> simp [Step.adjoins, Step.slot, Selector.isToken]
      simp only [advance, waiting, capturesWith, hadjoins]
      rfl
    rw [meet_waiting_accepted hi rfl (haccepts.trans hfits), hadvance, hlater, hcaptures, stay,
      Bool.true_or, Bool.and_true]
    split <;> rfl

theorem meet_above (his : Scan.DownTo q d is) (hd : d < p.depth) :
    (is.map waiting).flatMap (·.meet [q] p n) = is.map waiting := by
  rw [List.flatMap_map, List.map_eq_flatMap]
  refine List.flatMap_congr fun i hi => ?_
  obtain ⟨t, ht, hle⟩ := his i hi
  exact meet_waiting_elsewhere ht (Nat.ne_of_lt (Nat.lt_of_le_of_lt hle hd))

end State

namespace Program.Leads

theorem step (h : q.Leads name i d (t :: ts)) :
    ∃ captures a, q.step? i = some (.slot d t captures a) := by
  cases h with
  | last hi _ _ => exact ⟨_, _, hi⟩
  | more hi _ _ _ => exact ⟨_, _, hi⟩

theorem downTo (h : q.Leads name i d (t :: ts)) : Scan.DownTo q d [i] := by
  obtain ⟨captures, a, hi⟩ := h.step
  exact List.forall_mem_singleton.mpr ⟨_, hi, Nat.le_refl d⟩

theorem downTo_insert (h : q.Leads name i (d + 1) (t :: ts))
    (hothers : Scan.DownTo q d (before ++ after)) :
    Scan.DownTo q (d + 1) (before ++ ([i] ++ after)) := by
  obtain ⟨hbefore, hafter⟩ := List.forall_mem_append.mp (hothers.mono (Nat.le_succ d))
  exact List.forall_mem_append.mpr ⟨hbefore, List.forall_mem_append.mpr ⟨h.downTo, hafter⟩⟩

theorem nodup (h : q.Leads name i (d + 1) (t :: ts))
    (hothers : Scan.DownTo q d (before ++ after)) (hnodup : (before ++ after).Nodup) :
    (before ++ ([i] ++ after)).Nodup := by
  refine List.nodup_middle.mpr (List.nodup_cons.mpr ⟨fun hmem => ?_, hnodup⟩)
  obtain ⟨captures, a, hi⟩ := h.step
  obtain ⟨u, hu, hle⟩ := hothers i hmem
  cases hi.symm.trans hu
  exact Nat.not_succ_le_self d hle

theorem meet_of_not_fits (h : q.Leads name i d (t :: ts)) (hn : t.fits n = false) :
    (State.waiting i).meet [q] ⟨d, some parent, n.label.field, later⟩ n =
      (stay t.field n later [i]).map State.waiting := by
  cases h with
  | last hi hcaptures _ => rw [State.meet_slot hi hcaptures, hn]; rfl
  | more hi hcaptures _ _ => rw [State.meet_slot hi hcaptures, hn]; rfl

end Program.Leads

namespace Scan

theorem finds_matched (hq : q.StartsAtRoot) (hp : p.depth ≠ 0) (hs : s.Waits is)
    (hmeet : (is.map State.waiting).flatMap (·.meet [q] p n) =
      js.map State.waiting ++ State.matched q name n :: before.map State.waiting)
    (hnodup : (js ++ before).Nodup) (hin : DownTo q p.depth (js ++ before)) :
    (node [q] p n s).First (name, n) := by
  have hentered := found_enter hq hp hs hmeet State.captured_matched hnodup hin.isSome
  exact First.mono (by rw [First, hentered]; rfl) ((found_prefix_node_and_forest [q]).1 n _ s)

theorem lives_stay {f : Node → Option Node}
    (hf : ∀ m, field.all (m.label.field == some ·) = false → f m = none)
    (hs : s.Waits (before ++ (stay field n later is ++ after))) :
    Lives f (before ++ (is ++ after)) (before ++ after) later s := by
  cases hlater : mayFillLater field n later with
  | true =>
    rw [stay, hlater] at hs
    exact .inl hs
  | false =>
    rw [stay, hlater] at hs
    exact .inr ⟨hs, fun m hm => hf m (not_fills_of_not_mayFillLater hlater m hm)⟩

/-- Among siblings a program finds what the way finds at the first of them that it leads anywhere
from, with other states waiting further up. -/
def FindsAmong (q : Program) (name : String) (i d : Nat) (w : Way) : Prop :=
  ∀ {before after : List Nat} {parent : Node} {ns : List Node} {s : Scan},
    DownTo q d (before ++ after) → (before ++ ([i] ++ after)).Nodup →
    s.Waits (before ++ ([i] ++ after)) →
    Finds name (Lives w.find (before ++ ([i] ++ after)) (before ++ after) [])
      (forest [q] (d + 1) parent ns s) (ns.findSome? w.find)

theorem finds_fitting (hq : q.StartsAtRoot) (hleads : q.Leads name i (d + 1) (t :: ts))
    (hnext : ∀ u us, ts = u :: us → q.Leads name (i + 1) (d + 2) (u :: us) →
      FindsAmong q name (i + 1) (d + 1) ⟨u, us⟩)
    (hs : s.Waits is)
    (hmeet : (is.map State.waiting).flatMap
        (·.meet [q] ⟨d + 1, some parent, n.label.field, later⟩ n) =
      before.map State.waiting ++
        ((State.waiting i).meet [q] ⟨d + 1, some parent, n.label.field, later⟩ n ++
          after.map State.waiting))
    (hfits : t.fits n)
    (hnodup : (before ++ (stay t.field n later [i] ++ after)).Nodup)
    (hdownTo : DownTo q (d + 1) (before ++ (stay t.field n later [i] ++ after))) :
    Finds name (Waits (before ++ (stay t.field n later [i] ++ after)))
      (node [q] ⟨d + 1, some parent, n.label.field, later⟩ n s) (search ts n) := by
  cases hleads with
  | last hi hcaptures hsplit =>
    refine finds_matched hq (Nat.succ_ne_zero d) hs (hmeet.trans ?_) hnodup hdownTo
    rw [State.meet_slot hi hcaptures, hfits, if_pos rfl, List.map_singleton, hsplit]
    simp
  | more hi hcaptures hsplit hrest =>
    have hgoesOn : State.split q (q.length + 1)
        ⟨0, i + 1, 0, [].map (·, n), false, false, false⟩ = [.waiting (i + 1)] := hsplit
    have hdistinct := hrest.nodup hdownTo hnodup
    have hentered := waits_enter hq (Nat.succ_ne_zero d) hs (hmeet.trans (by
      rw [State.meet_slot hi hcaptures, hfits, if_pos rfl, hgoesOn]
      simp only [List.map_append, List.append_assoc, List.map_cons, List.map_nil])) hdistinct
      (hrest.downTo_insert hdownTo).isSome
    obtain ⟨b, c, hstep⟩ := hrest.step
    refine finds_node hentered ⟨i + 1, by simp, _, hstep, Nat.lt_succ_self _⟩
      (hnext _ _ rfl hrest hdownTo hdistinct hentered) fun s hs => ?_
    rcases hs with hs | ⟨hs, -⟩
    · have hleft := waits_leave hs (hrest.downTo_insert hdownTo).isSome (d + 1)
      have hdropped : ([i + 1].filter fun i =>
          (q.step? i).any fun t => decide (t.depth ≤ d + 1)) = [] := by
        simp [hstep, Step.slot]
      rwa [List.filter_append, List.filter_append, hdropped, List.nil_append,
        ← List.filter_append, hdownTo.filter_eq_self] at hleft
    · exact downTo_leave hs hdownTo

theorem findsAmong_of_next (hq : q.StartsAtRoot) (hleads : q.Leads name i (d + 1) (t :: ts))
    (hnext : ∀ u us, ts = u :: us → q.Leads name (i + 1) (d + 2) (u :: us) →
      FindsAmong q name (i + 1) (d + 1) ⟨u, us⟩) : FindsAmong q name i d ⟨t, ts⟩ := by
  intro before after parent ns s hothers hnodup hs
  have hbefore := hothers.subset (List.subset_append_left before after)
  have hafter := hothers.subset (List.subset_append_right before after)
  have hdownTo := hleads.downTo_insert hothers
  refine finds_forest (fun n ns s hs => ?_) (fun n ns s hs _ => ?_) ns s (.inl hs)
  · have habove {is : List Nat} (his : DownTo q d is) :=
      State.meet_above (p := ⟨d + 1, some parent, n.label.field, ns⟩) (n := n) his
        (Nat.lt_succ_self d)
    have hmeet : ((before ++ ([i] ++ after)).map State.waiting).flatMap
        (·.meet [q] ⟨d + 1, some parent, n.label.field, ns⟩ n) = before.map State.waiting ++
          ((State.waiting i).meet [q] ⟨d + 1, some parent, n.label.field, ns⟩ n ++
            after.map State.waiting) := by
      simp only [List.map_append, List.flatMap_append, List.map_singleton, List.flatMap_singleton,
        habove hbefore, habove hafter]
    have hstay := ((stay_sublist t.field n ns [i]).append_right after).append_left before
    have hmisfit (m : Node) (hm : t.field.all (m.label.field == some ·) = false) :
        Way.find ⟨t, ts⟩ m = none := by
      simp [Way.find, Slot.fits, hm]
    cases hfits : t.fits n with
    | true =>
      have hfinds := finds_fitting hq hleads hnext hs hmeet hfits (hnodup.sublist hstay)
        (hdownTo.subset hstay.subset)
      rw [Way.find, if_pos hfits]
      exact hfinds.imp (lives_stay hmisfit)
    | false =>
      rw [hleads.meet_of_not_fits hfits, ← List.map_append, ← List.map_append] at hmeet
      have hwaits := waits_node hq (Nat.succ_ne_zero d) hs hmeet (hnodup.sublist hstay)
        (hdownTo.subset hstay.subset)
      rw [Way.find, if_neg (by simp [hfits])]
      exact lives_stay hmisfit hwaits
  · exact waits_node hq (Nat.succ_ne_zero d) hs (State.meet_above hothers (Nat.lt_succ_self d))
      (hnodup.sublist ((List.sublist_append_right [i] after).append_left before))
      (hothers.mono (Nat.le_succ d))

theorem findsAmong_of_leads (hq : q.StartsAtRoot) (ts : List Slot) :
    ∀ {i d : Nat} {t : Slot}, q.Leads name i (d + 1) (t :: ts) →
      FindsAmong q name i d ⟨t, ts⟩ := by
  induction ts with
  | nil => exact fun hleads => findsAmong_of_next hq hleads nofun
  | cons u us ih =>
    intro i d t hleads
    apply findsAmong_of_next hq hleads
    rintro _ _ ⟨⟩ hrest
    exact ih hrest

end Scan

structure Program.Chooses (q : Program) (name : String) (field : Option String)
    (ways : List (Nat × Way)) : Prop where
  leads : ∀ w ∈ ways, q.Leads name w.1 1 (w.2.first :: w.2.rest)
  field : ∀ w ∈ ways, w.2.first.field = field
  kinds : ways.Pairwise fun v w => v.2.first.kind ≠ w.2.first.kind
  nodup : (ways.map Prod.fst).Nodup

def findAny (ways : List (Nat × Way)) (n : Node) : Option Node := ways.findSome? (·.2.find n)

variable {ways : List (Nat × Way)}

theorem findAny_eq_none (h : ∀ w ∈ ways, w.2.first.fits n = false) : findAny ways n = none := by
  rw [findAny, List.findSome?_eq_none_iff]
  intro w hw
  rw [Way.find, h w hw]
  rfl

theorem findAny_of_fits {front back : List (Nat × Way)} {w : Nat × Way}
    (hfront : ∀ v ∈ front, v.2.first.fits n = false) (hfits : w.2.first.fits n)
    (hback : ∀ v ∈ back, v.2.first.fits n = false) :
    findAny (front ++ w :: back) n = search w.2.rest n := by
  have hnone := findAny_eq_none hback
  rw [findAny] at hnone ⊢
  rw [List.findSome?_append, ← findAny, findAny_eq_none hfront, Option.none_or,
    List.findSome?_cons, Way.find, if_pos hfits, hnone]
  cases search w.2.rest n <;> rfl

theorem exists_of_findSome?_findAny {ns : List Node} {x : Node}
    (h : ns.findSome? (findAny ways) = some x) :
    ∃ c ∈ ns, ∃ w ∈ ways, w.2.first.fits c ∧ search w.2.rest c = some x := by
  obtain ⟨c, hc, hx⟩ := List.exists_of_findSome?_eq_some h
  obtain ⟨w, hw, hx⟩ := List.exists_of_findSome?_eq_some hx
  rw [Way.find] at hx
  split at hx
  next hfits => exact ⟨c, hc, w, hw, hfits, hx⟩
  · cases hx

namespace Program.Chooses

theorem sublist {ws : List (Nat × Way)} (h : q.Chooses name field ways) (hws : ws.Sublist ways) :
    q.Chooses name field ws where
  leads w hw := h.leads w (hws.subset hw)
  field w hw := h.field w (hws.subset hw)
  kinds := h.kinds.sublist hws
  nodup := h.nodup.sublist (hws.map Prod.fst)

theorem downTo (h : q.Chooses name field ways) : Scan.DownTo q 1 (ways.map Prod.fst) := by
  intro i hi
  obtain ⟨w, hw, rfl⟩ := List.mem_map.mp hi
  exact (h.leads w hw).downTo w.1 (List.mem_singleton_self w.1)

theorem meet_of_not_fits (h : q.Chooses name field ways)
    (hnone : ∀ w ∈ ways, w.2.first.fits n = false) :
    ((ways.map Prod.fst).map State.waiting).flatMap
        (·.meet [q] ⟨1, some parent, n.label.field, later⟩ n) =
      (stay field n later (ways.map Prod.fst)).map State.waiting := by
  induction ways with
  | nil =>
    rw [stay, List.map_nil, ite_self]
    rfl
  | cons w ways ih =>
    obtain ⟨hw, hways⟩ := List.forall_mem_cons.mp hnone
    have hmeet : (State.waiting w.1).meet [q] ⟨1, some parent, n.label.field, later⟩ n =
        (stay field n later [w.1]).map State.waiting := by
      rw [← h.field w List.mem_cons_self]
      exact (h.leads w List.mem_cons_self).meet_of_not_fits hw
    rw [List.map_cons, List.map_cons, List.flatMap_cons, hmeet,
      ih (h.sublist (List.sublist_cons_self w ways)) hways, ← List.map_append, ← stay_append]
    rfl

theorem split_of_fits (h : q.Chooses name field ways) {w : Nat × Way} (hw : w ∈ ways)
    (hfits : w.2.first.fits n) : ∃ front back, ways = front ++ w :: back ∧
      (∀ v ∈ front, v.2.first.fits n = false) ∧ ∀ v ∈ back, v.2.first.fits n = false := by
  obtain ⟨front, back, rfl⟩ := List.append_of_mem hw
  have hkind := (Slot.of_fits hfits).2
  have hother (v : Nat × Way) (hv : v.2.first.kind ≠ w.2.first.kind) :
      v.2.first.fits n = false := by
    simp [Slot.fits, hkind, hv.symm]
  obtain ⟨-, hback, hfront⟩ := List.pairwise_append.mp h.kinds
  refine ⟨front, back, rfl, fun v hv => ?_, fun v hv => ?_⟩
  · exact hother v (hfront v hv w List.mem_cons_self)
  · exact hother v ((List.pairwise_cons.mp hback).1 v hv).symm

end Program.Chooses

namespace Scan

theorem lives_stay_all {f : Node → Option Node}
    (hf : ∀ m, field.all (m.label.field == some ·) = false → f m = none)
    (hs : s.Waits (stay field n later is)) : Lives f is [] later s := by
  have hlives : Lives f ([] ++ (is ++ [])) ([] ++ []) later s :=
    lives_stay hf (by rwa [List.nil_append, List.append_nil])
  rwa [List.nil_append, List.append_nil] at hlives

theorem finds_choice (hq : q.StartsAtRoot) (h : q.Chooses name field ways)
    (hs : s.Waits (ways.map Prod.fst)) :
    Finds name (Lives (findAny ways) (ways.map Prod.fst) [] later)
      (node [q] ⟨1, some parent, n.label.field, later⟩ n s) (findAny ways n) := by
  have hstay := stay_sublist field n later (ways.map Prod.fst)
  have hmisfit (m : Node) (hm : field.all (m.label.field == some ·) = false) :
      findAny ways m = none := by
    refine findAny_eq_none fun w hw => ?_
    rw [Slot.fits, h.field w hw, hm, Bool.and_false]
  suffices hfinds : Finds name (Waits (stay field n later (ways.map Prod.fst)))
      (node [q] ⟨1, some parent, n.label.field, later⟩ n s) (findAny ways n) from
    hfinds.imp (lives_stay_all hmisfit)
  by_cases hany : ∃ w ∈ ways, w.2.first.fits n
  · obtain ⟨w, hw, hfits⟩ := hany
    obtain rfl := h.field w hw
    obtain ⟨front, back, rfl, hfront, hback⟩ := h.split_of_fits hw hfits
    have hparts : stay w.2.first.field n later ((front ++ w :: back).map Prod.fst) =
        stay w.2.first.field n later (front.map Prod.fst) ++
          (stay w.2.first.field n later [w.1] ++
            stay w.2.first.field n later (back.map Prod.fst)) := by
      rw [← stay_append, ← stay_append, List.map_append, List.map_cons, List.singleton_append]
    have hmeet : (((front ++ w :: back).map Prod.fst).map State.waiting).flatMap
        (·.meet [q] ⟨1, some parent, n.label.field, later⟩ n) =
          (stay w.2.first.field n later (front.map Prod.fst)).map State.waiting ++
            ((State.waiting w.1).meet [q] ⟨1, some parent, n.label.field, later⟩ n ++
              (stay w.2.first.field n later (back.map Prod.fst)).map State.waiting) := by
      rw [List.map_append, List.map_append, List.flatMap_append, List.map_cons, List.map_cons,
        List.flatMap_cons,
        (h.sublist (List.sublist_append_left front (w :: back))).meet_of_not_fits hfront,
        (h.sublist ((List.sublist_cons_self w back).trans
          (List.sublist_append_right front (w :: back)))).meet_of_not_fits hback]
    rw [findAny_of_fits hfront hfits hback, hparts]
    rw [hparts] at hstay
    exact finds_fitting hq (h.leads w hw) (fun u us _ hrest => findsAmong_of_leads hq us hrest) hs
      hmeet hfits (h.nodup.sublist hstay) (h.downTo.subset hstay.subset)
  · have hnone : ∀ w ∈ ways, w.2.first.fits n = false := fun w hw =>
      Bool.eq_false_iff.mpr fun hfits => hany ⟨w, hw, hfits⟩
    rw [findAny_eq_none hnone]
    exact waits_node hq Nat.one_ne_zero hs (h.meet_of_not_fits hnone) (h.nodup.sublist hstay)
      (h.downTo.subset hstay.subset)

end Scan

structure Program.StartsWith (q : Program) (name kind : String) (field : Option String)
    (ways : List (Nat × Way)) : Prop extends q.Chooses name field ways where
  entries : q.entries = [0]
  first : q.step? 0 = some (.start kind)
  split : State.split q (q.length + 1) (.waiting 1) = (ways.map Prod.fst).map State.waiting
  some : ways ≠ []

namespace Program.StartsWith

theorem startsAtRoot (h : q.StartsWith name kind field ways) : q.StartsAtRoot := by
  intro i hi t ht
  rw [h.entries, List.mem_singleton] at hi
  rw [hi, h.first] at ht
  cases ht
  rfl

theorem waits (h : q.StartsWith name kind field ways) (hnamed : n.isNamed) (hkind : n.kind = kind) :
    (Scan.start.enter [q] Scan.root n).Waits (ways.map Prod.fst) := by
  refine Scan.waits_root h.entries h.first rfl rfl rfl rfl ?_ ?_ h.nodup h.downTo.isSome
  · simp [Step.accepts, Step.start, Selector.selects, hnamed, hkind]
  · have hadjoins : (q.step? 1).any (Step.adjoins (.start kind)) = false := by
      cases q.step? 1 <;> simp [Step.adjoins, Step.start, Selector.isToken]
    rw [hadjoins]
    exact h.split

theorem depth_eq (h : q.StartsWith name kind field ways) (hi : i ∈ ways.map Prod.fst) :
    ∃ t, q.step? i = .some t ∧ t.depth = 1 := by
  obtain ⟨w, hw, rfl⟩ := List.mem_map.mp hi
  obtain ⟨captures, a, hstep⟩ := (h.leads w hw).step
  exact ⟨_, hstep, rfl⟩

theorem leave (h : q.StartsWith name kind field ways) {f : Node → Option Node}
    (hs : Scan.Lives f (ways.map Prod.fst) [] [] s) : (s.leave [q] 0).Waits [] := by
  have hnone : ((ways.map Prod.fst).filter fun i =>
      (q.step? i).any fun t => decide (t.depth ≤ 0)) = [] := by
    refine List.filter_eq_nil_iff.mpr fun i hi => ?_
    obtain ⟨t, ht, hdepth⟩ := h.depth_eq hi
    simp [ht, hdepth]
  rcases hs with hs | ⟨hs, -⟩
  · exact hnone ▸ Scan.waits_leave hs h.downTo.isSome 0
  · exact Scan.waits_leave hs (List.forall_mem_nil _) 0

/-- What a program captures first is what one of its ways leads to, from the first child from which
any of them leads anywhere. -/
theorem firstCapture?_eq {text : Bytes} (h : q.StartsWith name kind field ways)
    (hnamed : n.isNamed) (hkind : n.kind = kind) :
    (q.query name).firstCapture? text n = n.children.findSome? (findAny ways) := by
  have hentered := h.waits hnamed hkind
  have hforest : Scan.Finds name (Scan.Lives (findAny ways) (ways.map Prod.fst) [] [])
      (Scan.forest [q] 1 n n.children (Scan.start.enter [q] Scan.root n))
      (n.children.findSome? (findAny ways)) :=
    Scan.finds_forest
      (fun m ns s hs => Scan.finds_choice h.startsAtRoot h.toChooses hs)
      (fun m ns s hs _ => Scan.waits_nil_node h.startsAtRoot Nat.one_ne_zero hs)
      n.children _ (.inl hentered)
  obtain ⟨w, hw⟩ := List.exists_mem_of_ne_nil ways h.some
  obtain ⟨t, ht, hdepth⟩ := h.depth_eq (List.mem_map_of_mem hw)
  have hbelow : Scan.root.depth < t.depth := by
    rw [hdepth]
    exact Nat.zero_lt_one
  exact Query.firstCapture?_eq (Scan.finds_node hentered
    ⟨w.1, List.mem_map_of_mem hw, t, ht, hbelow⟩ hforest fun s hs => h.leave hs)

theorem firstCapture?_eq_search {text : Bytes} {w : Way}
    (h : q.StartsWith name kind field [(i, w)]) (hnamed : n.isNamed) (hkind : n.kind = kind) :
    (q.query name).firstCapture? text n = search (w.first :: w.rest) n := by
  have hway : findAny [(i, w)] = w.find := by
    funext c
    rw [findAny, List.findSome?_cons, List.findSome?_nil]
    cases w.find c <;> rfl
  rw [h.firstCapture?_eq hnamed hkind, hway]
  rfl

end Program.StartsWith

end ChunkWatch.Query
