import ChunkWatch.Proofs.Extract.Represented

/-! The nodes that a walk comes to.  Such a node that has a rule and a name becomes a chunk, unless
it or its name stands for an earlier one.  Where the rules of a language are in concord, this loses
no name: each is the name of one chunk. -/

namespace ChunkWatch

open Syntax (Node Tree)

namespace Emission

variable {es fs : List Emission} {represented : List Nat}

theorem mem_marked {i : Nat} :
    i ∈ marked es represented ↔ (∃ e ∈ es, i ∈ e.marks) ∨ i ∈ represented := by
  induction es generalizing represented with
  | nil => simp [marked]
  | cons e es ih =>
    rw [marked, List.foldl_cons, ← marked, ih]
    simp [or_assoc, or_left_comm]

theorem marked_subset : represented ⊆ marked es represented := fun _ h => mem_marked.mpr (.inr h)

def Covers (marks : List Nat) (n name : Node) : Prop := n.id ∈ marks ∨ name.id ∈ marks

theorem Covers.mono {marks more : List Nat} {n name : Node} (h : Covers marks n name)
    (hmarks : marks ⊆ more) : Covers more n name :=
  h.imp (hmarks ·) (hmarks ·)

end Emission

namespace Language

open Emission (Covers marked)

def Enters (l : Language) (n : Node) : Prop :=
  n.isNamed ∧ n.kind ∉ l.spec.skip ∧ n.kind ∉ l.spec.fold

/-- The walk comes from a node to one below it, if it enters this one and all that are between. -/
inductive Reached (l : Language) : Node → Node → Prop
  | child : n ∈ m.children → l.Enters n → Reached l m n
  | deeper : c ∈ m.children → l.Enters c → Reached l c n → Reached l m n

variable {l : Language} {t : Tree} {text : Bytes} {m n x : Node} {r : ChunkRule.Compiled}

theorem Reached.mem_forest (h : Reached l m n) : n ∈ Node.forest m.children := by
  induction h with
  | child hn _ => exact Node.mem_forest_iff.mpr ⟨_, hn, Node.mem_preorder_self _⟩
  | deeper hc _ _ ih =>
    refine Node.mem_forest_iff.mpr ⟨_, hc, ?_⟩
    rw [Node.preorder_eq]
    exact List.mem_cons_of_mem _ ih

theorem Reached.isNamed (h : Reached l m n) : n.isNamed := by
  induction h with
  | child _ hn => exact hn.1
  | deeper _ _ _ ih => exact ih

theorem reached_node {label : Syntax.Label} {ns : List Node} :
    Reached l (.node label ns) n ↔ ∃ c ∈ ns, l.Enters c ∧ (n = c ∨ Reached l c n) := by
  constructor
  · intro h
    cases h with
    | child hn henters => exact ⟨n, hn, henters, .inl rfl⟩
    | deeper hc henters h => exact ⟨_, hc, henters, .inr h⟩
  · rintro ⟨c, hc, henters, rfl | h⟩
    · exact .child hc henters
    · exact .deeper hc henters h

theorem reached_below_and_among :
    (∀ n : Node, ∀ represented, ∀ e ∈ emissionsBelow l text n represented,
      Reached l n e.node) ∧
    ∀ ns : List Node, ∀ folded represented, ∀ e ∈ emissionsAmong l text ns folded represented,
      ∃ c ∈ ns, l.Enters c ∧ (e.node = c ∨ Reached l c e.node) := by
  apply Node.induction_with_forest
  case node =>
    intro label ns ih represented e he
    rw [emissionsBelow] at he
    exact reached_node.mpr (ih [] represented e he)
  case nil =>
    intro folded represented e he
    rw [emissionsAmong] at he
    cases he
  case cons =>
    intro n ns ihn ihns folded represented e he
    have hlater {folded' : List Node} {represented' : List Nat}
        (he : e ∈ emissionsAmong l text ns folded' represented') :
        ∃ c ∈ n :: ns, l.Enters c ∧ (e.node = c ∨ Reached l c e.node) := by
      obtain ⟨c, hc, hreached⟩ := ihns folded' represented' e he
      exact ⟨c, List.mem_cons_of_mem n hc, hreached⟩
    rw [emissionsAmong] at he
    split at he
    · exact hlater he
    next hnamed =>
      split at he
      · exact hlater he
      next hskip =>
        split at he
        · exact hlater he
        next hfold =>
          have henters : l.Enters n := ⟨by simpa using hnamed, hskip, hfold⟩
          rw [List.mem_append, List.mem_append] at he
          rcases he with (he | he) | he
          · exact ⟨n, List.mem_cons_self, henters, .inl (mem_ownEmissions_iff.mp he).1⟩
          · exact ⟨n, List.mem_cons_self, henters, .inr (ihn _ e he)⟩
          · exact hlater he

theorem covers_own {folded : List Node} {represented : List Nat} (hrule : l.rule? n.kind = some r)
    (hname : r.name.firstCapture? text n = some x) :
    Covers (marked (ownEmissions l text n folded represented) represented) n x := by
  by_cases hn : n.id ∈ represented
  · exact .inl (Emission.marked_subset hn)
  · by_cases hx : x.id ∈ represented
    · exact .inr (Emission.marked_subset hx)
    · let e : Emission := ⟨n, x, r.parent.bind (·.firstCapture? text n),
        r.summary.bind (·.firstCapture? text n), folded⟩
      have he : e ∈ ownEmissions l text n folded represented :=
        mem_ownEmissions_iff.mpr ⟨rfl, rfl, hn, hx, r, hrule, hname, rfl, rfl⟩
      exact .inr (Emission.mem_marked.mpr (.inl ⟨e, he, by simp [e, Emission.marks]⟩))

theorem covers_below_and_among : (∀ n : Node, ∀ represented, ∀ m r x, Reached l n m →
      l.rule? m.kind = some r → r.name.firstCapture? text m = some x →
      Covers (marked (emissionsBelow l text n represented) represented) m x) ∧
    ∀ ns : List Node, ∀ folded represented, ∀ m r x,
      (∃ c ∈ ns, l.Enters c ∧ (m = c ∨ Reached l c m)) →
      l.rule? m.kind = some r → r.name.firstCapture? text m = some x →
      Covers (marked (emissionsAmong l text ns folded represented) represented) m x := by
  apply Node.induction_with_forest
  case node =>
    intro label ns ih represented m r x hm hrule hname
    rw [emissionsBelow]
    exact ih [] represented m r x (reached_node.mp hm) hrule hname
  case nil =>
    rintro folded represented m r x ⟨c, hc, -⟩
    cases hc
  case cons =>
    rintro n ns ihn ihns folded represented m r x ⟨c, hc, henters, hm⟩ hrule hname
    have hlater (hc : c ∈ ns) (folded' : List Node) (represented' : List Nat) :=
      ihns folded' represented' m r x ⟨c, hc, henters, hm⟩ hrule hname
    rw [emissionsAmong]
    rcases List.mem_cons.mp hc with rfl | hc
    · rw [if_neg (by simp [henters.1]), if_neg henters.2.1, if_neg henters.2.2]
      rw [Emission.marked_append]
      refine Covers.mono ?_ Emission.marked_subset
      rw [Emission.marked_append]
      rcases hm with rfl | hm
      · exact (covers_own hrule hname).mono Emission.marked_subset
      · exact ihn _ m r x hm hrule hname
    · split
      · exact hlater hc _ _
      · split
        · exact hlater hc _ _
        · split
          · exact hlater hc _ _
          · rw [Emission.marked_append]
            exact hlater hc _ _

def Names (l : Language) (text : Bytes) (root x : Node) : Prop :=
  ∃ n r, Reached l root n ∧ l.rule? n.kind = some r ∧ r.name.firstCapture? text n = some x

def wrapperKinds : List String := ["decorated_definition", "export_statement"]

/-- Names are no nodes that have a rule, summaries are, and the name of a summary is the name of the
node that it sums up.  The name of a wrapper is the name of a child. -/
structure Concordant (l : Language) : Prop where
  name : ∀ {text n r x}, l.rule? n.kind = some r → r.name.firstCapture? text n = some x →
    l.rule? x.kind = none
  summary : ∀ {text n r q m}, n.isNamed → l.rule? n.kind = some r → r.summary = some q →
    q.firstCapture? text n = some m → ∃ s, l.rule? m.kind = some s ∧
      ∀ x, s.name.firstCapture? text m = some x → r.name.firstCapture? text n = some x
  wrapper : ∀ {text n r x}, n.isNamed → n.kind ∈ wrapperKinds → l.rule? n.kind = some r →
    r.name.firstCapture? text n = some x → ∃ c ∈ n.children, ∃ s, l.rule? c.kind = some s ∧
      s.name.firstCapture? text c = some x

theorem eq_of_represents {e : Emission} (hroot : t.root.Distinct) (he : e ∈ l.emissions t text)
    (hm : m ∈ t.root.preorder) (h : e.Represents m) : m = e.name ∨ e.summary = some m := by
  obtain ⟨r, hr⟩ := emits_of_mem he
  have hbelow := Node.preorder_subset (node_mem_preorder he)
  rcases h with hid | ⟨k, hk, hid⟩
  · exact .inl (hroot.eq_of_id hm (hbelow hr.name_mem) hid)
  · rw [hroot.eq_of_id hm (hbelow (hr.summary_mem hk)) hid]
    exact .inr hk

theorem Emits.query {e : Emission} (h : Emits l text e r) (hm : e.summary = some m) :
    ∃ q, r.summary = some q ∧ q.firstCapture? text e.node = some m :=
  Option.bind_eq_some_iff.mp (h.summary.symm.trans hm)

/-- Where the rules are in concord, the names of the chunks of a tree are those that the rules find
at the nodes that the walk comes to. -/
theorem Concordant.names_iff (h : l.Concordant) (hroot : t.root.Distinct) :
    (∃ e ∈ l.emissions t text, e.name = x) ↔ Names l text t.root x := by
  constructor
  · rintro ⟨e, he, rfl⟩
    obtain ⟨r, hr⟩ := emits_of_mem he
    exact ⟨e.node, r, reached_below_and_among.1 t.root [] e he, hr.rule, hr.name⟩
  · rintro ⟨n, r, hreached, hrule, hname⟩
    have hn : n ∈ t.root.preorder := by
      rw [Node.preorder_eq]
      exact List.mem_cons_of_mem _ hreached.mem_forest
    have hx : x ∈ t.root.preorder :=
      Node.preorder_subset hn (Query.mem_preorder_of_firstCapture? hname)
    have hrepresents {m : Node} (hm : m ∈ t.root.preorder)
        (hmarked : m.id ∈ marked (l.emissions t text) []) :
        ∃ e ∈ l.emissions t text, ∃ s, Emits l text e s ∧ e.node.isNamed ∧
          (m = e.name ∨ e.summary = some m) := by
      obtain ⟨e, he, hmem⟩ := (Emission.mem_marked.mp hmarked).resolve_right List.not_mem_nil
      obtain ⟨s, hs⟩ := emits_of_mem he
      exact ⟨e, he, s, hs, (reached_below_and_among.1 t.root [] e he).isNamed,
        eq_of_represents hroot he hm (Emission.represents_iff.mpr hmem)⟩
    rcases covers_below_and_among.1 t.root [] n r x hreached hrule hname with hcovered | hcovered
    · obtain ⟨e, he, s, hs, hnamed, rfl | hsummary⟩ := hrepresents hn hcovered
      · -- a name has no rule of its own
        rw [h.name hs.rule hs.name] at hrule
        cases hrule
      · -- the summary of a chunk has the name of the chunk
        obtain ⟨q, hq, hfirst⟩ := hs.query hsummary
        obtain ⟨r', hr', hsame⟩ := h.summary hnamed hs.rule hq hfirst
        cases hrule.symm.trans hr'
        exact ⟨e, he, Option.some.inj (hs.name.symm.trans (hsame x hname))⟩
    · obtain ⟨e, he, s, hs, hnamed, rfl | hsummary⟩ := hrepresents hx hcovered
      · exact ⟨e, he, rfl⟩
      · obtain ⟨q, hq, hfirst⟩ := hs.query hsummary
        obtain ⟨r', hr', -⟩ := h.summary hnamed hs.rule hq hfirst
        rw [h.name hrule hname] at hr'
        cases hr'

theorem nodup_names (l : Language) (t : Tree) (text : Bytes) :
    ((l.emissions t text).map fun e => e.name.id).Nodup := by
  have hfresh : Emission.Fresh [] (l.emissions t text) := fresh_below_and_among.1 t.root []
  exact List.pairwise_map.mpr (hfresh.pairwise.imp And.right)

theorem Concordant.wrapped (h : l.Concordant) {e : Emission} (he : e ∈ l.emissions t text)
    (hkind : e.node.kind ∈ wrapperKinds) : ∃ c ∈ e.node.children,
      (∃ s, l.rule? c.kind = some s ∧ s.name.firstCapture? text c = some e.name) ∧
      ∀ f ∈ l.emissions t text, f.node ≠ c := by
  obtain ⟨r, hr⟩ := emits_of_mem he
  have hnamed := (reached_below_and_among.1 t.root [] e he).isNamed
  obtain ⟨c, hc, s, hs, hname⟩ := h.wrapper hnamed hkind hr.rule hr.name
  refine ⟨c, hc, ⟨s, hs, hname⟩, ?_⟩
  rintro f hf rfl
  obtain ⟨r', hr'⟩ := emits_of_mem hf
  cases hs.symm.trans hr'.rule
  have hsame : e.name = f.name := Option.some.inj (hname.symm.trans hr'.name)
  have heq := List.inj_on_of_nodup_map (nodup_names l t text) he hf (congrArg Node.id hsame)
  rw [heq] at hc
  exact Node.not_mem_children f.node hc

end Language

end ChunkWatch
