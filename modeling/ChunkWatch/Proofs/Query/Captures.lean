import ChunkWatch.Proofs.Syntax.Preorder
import ChunkWatch.Query

namespace ChunkWatch.Query

open Syntax (Node)

variable {P : Node → Prop} {qs : List Program} {p : Place} {n : Node}

def Holding (P : Node → Prop) (cs : Captures) : Prop := ∀ c ∈ cs, P c.2

theorem holding_append {cs ds : Captures} (hcs : Holding P cs) (hds : Holding P ds) :
    Holding P (cs ++ ds) :=
  List.forall_mem_append.mpr ⟨hcs, hds⟩

theorem holding_map {names : List String} (h : names ≠ [] → P n) :
    Holding P (names.map (·, n)) := by
  intro c hc
  obtain ⟨name, hname, rfl⟩ := List.mem_map.mp hc
  exact h (List.ne_nil_of_mem hname)

/-- A step that captures selects the node, or it is one that a program starts with, whose node may
have been passed over. -/
def MayCapture (qs : List Program) (n : Node) : Prop :=
  ∃ q ∈ qs, ∃ t ∈ q, t.captures ≠ [] ∧ (t.selector.selects n ∨ t.depth = 0)

namespace State

variable {s u : State} {ss : List State}

theorem holding_capturesWith {q : Program} {t : Step} (hq : q ∈ qs) (hs : Holding P s.captures)
    (hn : t.captures ≠ [] → P n) (hparent : ∀ m ∈ p.parent, MayCapture qs m → P m) :
    Holding P (s.capturesWith q t p n) := by
  rw [capturesWith]
  refine holding_append (holding_append hs ?_) (holding_map hn)
  split
  next parent _ hp =>
    apply holding_map
    intro hne
    generalize hroot : (q.take s.step).reverse.find? _ = root at hne
    cases root with
    | none => exact absurd rfl hne
    | some u =>
      have hu := List.mem_of_mem_take (List.mem_reverse.mp (List.mem_of_find?_eq_some hroot))
      have hstarts := List.find?_some hroot
      simp only [Bool.and_eq_true, beq_iff_eq] at hstarts
      exact hparent parent hp ⟨q, hq, u, hu, hne, .inr hstarts.1.1⟩
  · exact List.forall_mem_nil _

theorem captures_of_mem_split {q : Program} {fuel : Nat} {cs : Captures}
    (h : u ∈ split q fuel s) (hs : s.captures = cs) : u.captures = cs := by
  induction fuel generalizing s with
  | zero => rw [List.mem_singleton.mp h, hs]
  | succ fuel ih =>
    rw [split] at h
    split at h
    · rw [List.mem_singleton.mp h, hs]
    · split at h
      · rw [List.mem_singleton.mp h, hs]
      · split at h
        · exact ih h hs
        · split at h
          · rcases List.mem_append.mp h with h | h <;> exact ih h hs
          · rcases List.mem_cons.mp h with rfl | h
            · exact hs
            · exact ih h hs

theorem mem_of_step? {q : Program} {t : Step} (hq : qs[s.pattern]? = some q)
    (ht : s.step? qs = some t) : q ∈ qs ∧ t ∈ q := by
  rw [State.step?, hq] at ht
  exact ⟨List.mem_of_getElem? hq, List.mem_of_getElem? ht⟩

theorem holding_meet (hs : Holding P s.captures) (hn : MayCapture qs n → P n)
    (hparent : ∀ m ∈ p.parent, MayCapture qs m → P m) (hu : u ∈ s.meet qs p n) :
    Holding P u.captures := by
  have hstays (h : u ∈ [{ s with outdone := false }]) : Holding P u.captures := by
    rw [List.mem_singleton.mp h]
    exact hs
  rw [meet] at hu
  dsimp only at hu
  split at hu
  next q t hq ht =>
    obtain ⟨hmem, htmem⟩ := mem_of_step? (s := { s with outdone := false }) hq ht
    split at hu
    · exact hstays hu
    · split at hu
      next haccepts =>
        rcases List.mem_append.mp hu with hu | hu
        · rw [captures_of_mem_split hu rfl]
          refine holding_capturesWith hmem hs (fun hne => hn ?_) hparent
          simp only [Step.accepts, Bool.and_eq_true] at haccepts
          exact ⟨q, hmem, t, htmem, hne, .inl haccepts.1.1.1⟩
        · split at hu
          · exact hstays hu
          · cases hu
      · split at hu
        · exact hstays hu
        · cases hu
  · exact hstays hu

theorem captures_of_against {cs : Captures} (h : (s.against ss).1 = some u)
    (hs : s.captures = cs) : u.captures = cs := by
  induction ss generalizing s with
  | nil =>
    cases h
    exact hs
  | cons t ts ih =>
    rw [against] at h
    split at h
    · cases h
      exact hs
    · dsimp only at h
      split at h
      · exact ih h hs
      · split at h
        · cases h
        · exact ih h hs

theorem captures_of_mem_against (h : u ∈ (s.against ss).2) :
    ∃ t ∈ ss, u.captures = t.captures := by
  induction ss generalizing s with
  | nil => cases h
  | cons t ts ih =>
    rw [against] at h
    split at h
    · exact ⟨u, h, rfl⟩
    · dsimp only at h
      split at h
      · obtain ⟨v, hv, hu⟩ := ih h
        exact ⟨v, List.mem_cons_of_mem t hv, hu⟩
      · split at h
        · exact ⟨u, h, rfl⟩
        · rcases List.mem_cons.mp h with rfl | h
          · exact ⟨t, List.mem_cons_self, rfl⟩
          · obtain ⟨v, hv, hu⟩ := ih h
            exact ⟨v, List.mem_cons_of_mem t hv, hu⟩

end State

structure AllHolding (P : Node → Prop) (states : List State) (found : List Match) : Prop where
  states : ∀ s ∈ states, Holding P s.captures
  found : ∀ m ∈ found, Holding P m.captures

theorem allHolding_settle (qs : List Program) {ss : List State}
    (h : ∀ s ∈ ss, Holding P s.captures) : AllHolding P (settle qs ss).1 (settle qs ss).2 := by
  have hbehind {s : State} {ss : List State} (hss : ∀ t ∈ s :: ss, Holding P t.captures) :
      ∀ t ∈ (s.against ss).2, Holding P t.captures := by
    intro t ht
    obtain ⟨u, hu, hcaptures⟩ := State.captures_of_mem_against ht
    rw [hcaptures]
    exact hss u (List.mem_cons_of_mem s hu)
  fun_induction settle qs ss with
  | case1 => exact ⟨h, List.forall_mem_nil _⟩
  | case2 s ss r _ ih => exact ih (hbehind h)
  | case3 s ss r t ht _ ih =>
    obtain ⟨hstates, hfound⟩ := ih (hbehind h)
    refine ⟨hstates, List.forall_mem_cons.mpr ⟨?_, hfound⟩⟩
    rw [State.toMatch, State.captures_of_against ht rfl]
    exact h s List.mem_cons_self
  | case4 s ss r t ht _ ih =>
    obtain ⟨hstates, hfound⟩ := ih (hbehind h)
    refine ⟨List.forall_mem_cons.mpr ⟨?_, hstates⟩, hfound⟩
    rw [State.captures_of_against ht rfl]
    exact h s List.mem_cons_self

namespace Scan

variable {s : Scan}

theorem mem_insert {new t : State} {ss : List State} (h : t ∈ insert new ss) :
    t = new ∨ t ∈ ss := by
  rw [insert] at h
  split at h
  · split at h
    · exact .inr h
    · rcases List.mem_append.mp h with h | h
      · have hfront := (List.dropWhile_sublist _).subset (List.mem_reverse.mp h)
        exact .inr (List.mem_reverse.mp hfront)
      · rcases List.mem_cons.mp h with rfl | h
        · exact .inl rfl
        · have hlater := (List.takeWhile_sublist _).subset (List.mem_reverse.mp h)
          exact .inr (List.mem_reverse.mp hlater)
  · exact List.mem_cons.mp h

theorem captures_of_mem_beginnings {t : State} (h : t ∈ beginnings qs p n) : t.captures = [] := by
  rw [beginnings] at h
  rcases List.mem_append.mp h with h | h
  all_goals
    obtain ⟨q, -, ht⟩ := List.mem_flatMap.mp h
    simp only [Bool.false_eq_true, ↓reduceIte, List.mem_reverse] at ht
    obtain ⟨i, -, hi⟩ := List.mem_filterMap.mp ht
    obtain ⟨u, -, hu⟩ := Option.bind_eq_some_iff.mp hi
    split at hu
    · cases hu
      rfl
    · cases hu

theorem holding_insertAll {new ss : List State} (hnew : ∀ t ∈ new, Holding P t.captures)
    (hss : ∀ t ∈ ss, Holding P t.captures) :
    ∀ t ∈ new.foldl (fun ss new => insert new ss) ss, Holding P t.captures := by
  induction new generalizing ss with
  | nil => exact hss
  | cons u us ih =>
    obtain ⟨hu, hus⟩ := List.forall_mem_cons.mp hnew
    apply ih hus
    intro t ht
    rcases mem_insert ht with rfl | ht
    · exact hu
    · exact hss t ht

theorem allHolding_enter (qs : List Program) (hs : AllHolding P s.states s.found)
    (hn : MayCapture qs n → P n) (hparent : ∀ m ∈ p.parent, MayCapture qs m → P m) :
    AllHolding P (s.enter qs p n).states (s.enter qs p n).found := by
  have hbegun : ∀ t ∈ beginnings qs p n, Holding P t.captures := by
    intro t ht
    rw [captures_of_mem_beginnings ht]
    exact List.forall_mem_nil _
  have hstates := holding_insertAll hbegun hs.states
  have hmet : ∀ u ∈ ((beginnings qs p n).foldl (fun ss new => insert new ss) s.states).flatMap
      (·.meet qs p n), Holding P u.captures := by
    intro u hu
    obtain ⟨t, ht, hu⟩ := List.mem_flatMap.mp hu
    exact State.holding_meet (hstates t ht) hn hparent hu
  have hsettled := allHolding_settle qs hmet
  exact ⟨hsettled.states, List.forall_mem_append.mpr ⟨hs.found, hsettled.found⟩⟩

theorem allHolding_leave (hs : AllHolding P s.states s.found) (depth : Nat) :
    AllHolding P (s.leave qs depth).states (s.leave qs depth).found := by
  rw [leave]
  constructor
  · intro t ht
    exact hs.states t (List.mem_filter.mp ht).1
  · intro m hm
    rcases List.mem_append.mp hm with hm | hm
    · exact hs.found m hm
    · obtain ⟨t, ht, rfl⟩ := List.mem_map.mp hm
      exact hs.states t (List.mem_filter.mp ht).1

theorem allHolding_node_and_forest :
    (∀ n : Node, ∀ {p : Place} {s : Scan}, (∀ m ∈ n.preorder, MayCapture qs m → P m) →
      (∀ m ∈ p.parent, MayCapture qs m → P m) → AllHolding P s.states s.found →
      AllHolding P (node qs p n s).states (node qs p n s).found) ∧
    ∀ ns : List Node, ∀ {depth : Nat} {parent : Node} {s : Scan},
      (∀ m ∈ Node.forest ns, MayCapture qs m → P m) → (MayCapture qs parent → P parent) →
      AllHolding P s.states s.found →
      AllHolding P (forest qs depth parent ns s).states (forest qs depth parent ns s).found := by
  apply Node.induction_with_forest
  case node =>
    intro l ns ih p s hn hparent hs
    rw [Node.preorder] at hn
    obtain ⟨hself, hbelow⟩ := List.forall_mem_cons.mp hn
    have hentered := allHolding_enter qs hs hself hparent
    rw [node]
    apply allHolding_leave
    split
    · exact ih hbelow hself hentered
    · exact hentered
  case nil =>
    intro depth parent s _ _ hs
    rw [forest]
    exact hs
  case cons =>
    intro n ns ihn ihns depth parent s hns hparent hs
    rw [Node.forest] at hns
    obtain ⟨hn, hrest⟩ := List.forall_mem_append.mp hns
    rw [forest]
    refine ihns hrest hparent (ihn hn ?_ hs)
    rintro m ⟨⟩
    exact hparent

end Scan

theorem holding_of_mem_matchesAt {m : Match} (h : m ∈ matchesAt qs n) :
    Holding (fun c => c ∈ n.preorder ∧ MayCapture qs c) m.captures := by
  have hstart : AllHolding (fun c => c ∈ n.preorder ∧ MayCapture qs c) Scan.start.states
      Scan.start.found := ⟨List.forall_mem_nil _, List.forall_mem_nil _⟩
  exact (Scan.allHolding_node_and_forest.1 n (fun _ => .intro) nofun hstart).found m h

theorem holding_firstCapture? {q : Query} {text : Bytes} {c : Node}
    (h : q.firstCapture? text n = some c) :
    c ∈ n.preorder ∧ MayCapture (q.clauses.map Prod.fst) c := by
  rw [firstCapture?] at h
  obtain ⟨m, hm, hc⟩ := List.exists_of_findSome?_eq_some h
  have hholding := holding_of_mem_matchesAt (List.mem_filter.mp hm).1
  obtain ⟨x, hx, heq⟩ := List.mem_filterMap.mp (List.mem_of_head? hc)
  split at heq
  · cases heq
    exact hholding x hx
  · cases heq

theorem mem_preorder_of_firstCapture? {q : Query} {text : Bytes} {c : Node}
    (h : q.firstCapture? text n = some c) : c ∈ n.preorder :=
  (holding_firstCapture? h).1

def capturesOnly (kinds : List String) (qs : List Program) : Bool :=
  qs.all fun q => q.all fun t =>
    t.captures.isEmpty || (t.depth != 0 && kinds.any fun k => t.selector == .kind k)

theorem kind_mem_of_firstCapture? {q : Query} {text : Bytes} {c : Node} {kinds : List String}
    (hq : capturesOnly kinds (q.clauses.map Prod.fst)) (h : q.firstCapture? text n = some c) :
    c.kind ∈ kinds := by
  obtain ⟨-, p, hp, t, ht, hcaptures, hselects⟩ := holding_firstCapture? h
  have hstep := List.all_eq_true.mp (List.all_eq_true.mp hq p hp) t ht
  simp only [Bool.or_eq_true, List.isEmpty_iff, Bool.and_eq_true, bne_iff_ne, ne_eq,
    List.any_eq_true, beq_iff_eq] at hstep
  obtain ⟨hdepth, k, hk, hselector⟩ := hstep.resolve_left hcaptures
  have hselected := hselects.resolve_right hdepth
  simp only [hselector, Selector.selects, Bool.and_eq_true, beq_iff_eq] at hselected
  rw [hselected.2]
  exact hk

end ChunkWatch.Query
