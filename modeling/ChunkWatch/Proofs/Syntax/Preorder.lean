import Mathlib.Data.List.Nodup
import ChunkWatch.Syntax.Node

namespace ChunkWatch.Syntax

structure Label.Within (inner outer : Label) : Prop where
  start : outer.start ≤ inner.start
  order : inner.start ≤ inner.stop
  stop : inner.stop ≤ outer.stop

instance (inner outer : Label) : Decidable (inner.Within outer) :=
  decidable_of_iff
    (outer.start ≤ inner.start ∧ inner.start ≤ inner.stop ∧ inner.stop ≤ outer.stop)
    ⟨fun ⟨hstart, horder, hstop⟩ => ⟨hstart, horder, hstop⟩,
      fun ⟨hstart, horder, hstop⟩ => ⟨hstart, horder, hstop⟩⟩

theorem Label.Within.trans {a b c : Label} (h : a.Within b) (k : b.Within c) : a.Within c :=
  ⟨Nat.le_trans k.start h.start, h.order, Nat.le_trans h.stop k.stop⟩

namespace Node

theorem induction_with_forest {P : Node → Prop} {Q : List Node → Prop}
    (node : ∀ l ns, Q ns → P (.node l ns)) (nil : Q [])
    (cons : ∀ n ns, P n → Q ns → Q (n :: ns)) : (∀ n, P n) ∧ ∀ ns, Q ns :=
  ⟨@Node.rec P Q node nil cons, @Node.rec_1 P Q node nil cons⟩

variable {m n : Node} {ns : List Node}

theorem preorder_eq (n : Node) : n.preorder = n :: forest n.children := by
  cases n with
  | node l ns => rw [preorder, children]

theorem mem_preorder_self (n : Node) : n ∈ n.preorder := by
  rw [preorder_eq]
  exact List.mem_cons_self

theorem not_mem_children (n : Node) : n ∉ n.children := by
  intro h
  have hlt := List.sizeOf_lt_of_mem h
  cases n with
  | node l ns =>
    simp only [children, node.sizeOf_spec] at hlt
    omega

theorem mem_forest_iff : m ∈ forest ns ↔ ∃ n ∈ ns, m ∈ n.preorder := by
  induction ns with
  | nil => simp [forest]
  | cons n ns ih => simp [forest, ih]

theorem preorder_subset_preorder_and_forest :
    (∀ n : Node, ∀ m ∈ n.preorder, m.preorder ⊆ n.preorder) ∧
    ∀ ns : List Node, ∀ m ∈ forest ns, m.preorder ⊆ forest ns := by
  apply induction_with_forest
  case node =>
    intro l ns ih m hm
    rw [preorder] at hm
    rcases List.mem_cons.mp hm with rfl | hm
    · exact List.Subset.refl _
    · rw [preorder]
      exact List.subset_cons_of_subset _ (ih m hm)
  case nil => exact fun m hm => absurd hm List.not_mem_nil
  case cons =>
    intro n ns ihn ihns m hm
    rw [forest] at hm ⊢
    rcases List.mem_append.mp hm with hm | hm
    · exact List.subset_append_of_subset_left _ (ihn m hm)
    · exact List.subset_append_of_subset_right _ (ihns m hm)

theorem preorder_subset (h : m ∈ n.preorder) : m.preorder ⊆ n.preorder :=
  preorder_subset_preorder_and_forest.1 n m h

theorem preorder_subset_forest (h : m ∈ forest ns) : m.preorder ⊆ forest ns :=
  preorder_subset_preorder_and_forest.2 ns m h

def Distinct (n : Node) : Prop := (n.preorder.map Node.id).Nodup

instance (n : Node) : Decidable n.Distinct := inferInstanceAs (Decidable (List.Nodup _))

theorem Distinct.eq_of_id {a b : Node} (h : n.Distinct) (ha : a ∈ n.preorder) (hb : b ∈ n.preorder)
    (hid : a.id = b.id) : a = b :=
  List.inj_on_of_nodup_map h ha hb hid

def Apart (a b : Node) : Prop := ∀ c ∈ b.preorder, c.id ≠ a.id

theorem pairwise_apart_preorder_and_forest : (∀ n : Node, n.Distinct → n.preorder.Pairwise Apart) ∧
    ∀ ns : List Node, ((forest ns).map Node.id).Nodup → (forest ns).Pairwise Apart := by
  apply induction_with_forest
  case node =>
    intro l ns ih h
    rw [Distinct, preorder, List.map_cons, List.nodup_cons] at h
    rw [preorder, List.pairwise_cons]
    refine ⟨fun b hb c hc heq => h.1 ?_, ih h.2⟩
    rw [← heq]
    exact List.mem_map_of_mem (preorder_subset_forest hb hc)
  case nil => exact fun _ => .nil
  case cons =>
    intro n ns ihn ihns h
    rw [forest, List.map_append, List.nodup_append] at h
    rw [forest, List.pairwise_append]
    refine ⟨ihn h.1, ihns h.2.1, fun a ha b hb c hc heq => ?_⟩
    exact h.2.2 _ (List.mem_map_of_mem ha) _
      (List.mem_map_of_mem (preorder_subset_forest hb hc)) heq.symm

theorem Distinct.apart (h : n.Distinct) : n.preorder.Pairwise Apart :=
  pairwise_apart_preorder_and_forest.1 n h

/-- In every node of the subtree the ranges of the children lie inside its own, one behind the
other. -/
def Ranged (n : Node) : Prop :=
  ∀ m ∈ n.preorder, (∀ c ∈ m.children, c.label.Within m.label) ∧
    m.children.Pairwise fun a b => a.label.stop ≤ b.label.start

instance (n : Node) : Decidable n.Ranged := inferInstanceAs (Decidable (∀ m ∈ n.preorder, _ ∧ _))

theorem Ranged.of_mem (h : n.Ranged) (hm : m ∈ n.preorder) : m.Ranged :=
  fun x hx => h x (preorder_subset hm hx)

theorem Ranged.of_mem_children {l : Label} (h : (node l ns).Ranged) (hm : m ∈ ns) : m.Ranged := by
  apply h.of_mem
  rw [preorder]
  exact List.mem_cons_of_mem _ (mem_forest_iff.mpr ⟨m, hm, mem_preorder_self m⟩)

theorem within_node_and_forest :
    (∀ n : Node, n.Ranged → ∀ m ∈ forest n.children, m.label.Within n.label) ∧
    ∀ ns : List Node, ∀ n ∈ ns, n.Ranged → ∀ m ∈ forest n.children, m.label.Within n.label := by
  apply induction_with_forest
  case node =>
    intro l ns ih h m hm
    obtain ⟨c, hc, hm⟩ := mem_forest_iff.mp hm
    have hchild : c.label.Within l := (h _ (mem_preorder_self _)).1 c hc
    rw [preorder_eq] at hm
    rcases List.mem_cons.mp hm with rfl | hm
    · exact hchild
    · exact (ih c hc (h.of_mem_children hc) m hm).trans hchild
  case nil => exact List.forall_mem_nil _
  case cons => exact fun n ns ihn ihns => List.forall_mem_cons.mpr ⟨ihn, ihns⟩

theorem Ranged.within (h : n.Ranged) (hm : m ∈ forest n.children) : m.label.Within n.label :=
  within_node_and_forest.1 n h m hm

theorem Ranged.eq_or_within (h : n.Ranged) (hm : m ∈ n.preorder) :
    m = n ∨ m.label.Within n.label := by
  rw [preorder_eq] at hm
  exact (List.mem_cons.mp hm).imp_right h.within

end Node

/-- The second range lies inside the first one or behind it. -/
def Label.Follows (a b : Label) : Prop := b.Within a ∨ a.stop ≤ b.start

namespace Node

variable {n : Node}

theorem pairwise_follows_preorder_and_forest :
    (∀ n : Node, n.Ranged → n.preorder.Pairwise fun a b => a.label.Follows b.label) ∧
    ∀ ns : List Node, (∀ n ∈ ns, n.Ranged ∧ n.label.start ≤ n.label.stop) →
      (ns.Pairwise fun a b => a.label.stop ≤ b.label.start) →
      (forest ns).Pairwise fun a b => a.label.Follows b.label := by
  apply induction_with_forest
  case node =>
    intro l ns ih h
    obtain ⟨hinside, hordered⟩ := h _ (mem_preorder_self _)
    rw [preorder, List.pairwise_cons]
    refine ⟨fun b hb => .inl (h.within hb), ih (fun n hn => ?_) hordered⟩
    exact ⟨h.of_mem_children hn, (hinside n hn).order⟩
  case nil => exact fun _ _ => .nil
  case cons =>
    intro n ns ihn ihns h hordered
    obtain ⟨⟨hn, horder⟩, hns⟩ := List.forall_mem_cons.mp h
    obtain ⟨hfirst, hrest⟩ := List.pairwise_cons.mp hordered
    rw [forest, List.pairwise_append]
    refine ⟨ihn hn, ihns hns hrest, fun a ha b hb => .inr ?_⟩
    obtain ⟨c, hc, hb⟩ := mem_forest_iff.mp hb
    have hstop : a.label.stop ≤ n.label.stop := by
      rcases hn.eq_or_within ha with rfl | hwithin
      · exact Nat.le_refl _
      · exact hwithin.stop
    have hstart : c.label.start ≤ b.label.start := by
      rcases (hns c hc).1.eq_or_within hb with rfl | hwithin
      · exact Nat.le_refl _
      · exact hwithin.start
    calc
      a.label.stop ≤ n.label.stop := hstop
      _ ≤ c.label.start := hfirst c hc
      _ ≤ b.label.start := hstart

theorem Ranged.follows (h : n.Ranged) :
    n.preorder.Pairwise fun a b => a.label.Follows b.label :=
  pairwise_follows_preorder_and_forest.1 n h

end Node

theorem Node.forest_append (ms ns : List Node) :
    Node.forest (ms ++ ns) = Node.forest ms ++ Node.forest ns := by
  induction ms with
  | nil => rfl
  | cons m ms ih => rw [List.cons_append, Node.forest, Node.forest, ih, List.append_assoc]

theorem forest_attach (r : Row × Nat) (trees : List (Nat × Node)) :
    (Node.forest ((Row.attach r trees).map Prod.snd)).map Node.id =
      r.2 :: (Node.forest (trees.map Prod.snd)).map Node.id := by
  have hparts := congrArg (List.map Prod.snd)
    (List.takeWhile_append_dropWhile (p := fun t => r.1.depth < t.1) (l := trees))
  rw [List.map_append] at hparts
  rw [← hparts, Node.forest_append, Row.attach, List.map_cons, Node.forest, Node.preorder]
  rfl

theorem forest_foldr_attach (rows : List (Row × Nat)) :
    (Node.forest ((rows.foldr Row.attach []).map Prod.snd)).map Node.id = rows.map Prod.snd := by
  induction rows with
  | nil => rfl
  | cons r rows ih => rw [List.foldr_cons, forest_attach, ih, List.map_cons]

theorem distinct_of_ofRows? {text : Bytes} {rows : List Row} {t : Tree}
    (h : Tree.ofRows? text rows = some t) : t.root.Distinct := by
  have hnumbers := forest_foldr_attach rows.zipIdx
  rw [Tree.ofRows?] at h
  split at h
  next depth root hroot =>
    cases h
    rw [hroot, List.map_cons, Node.forest, List.map_nil, Node.forest, List.append_nil,
      List.zipIdx_map_snd] at hnumbers
    rw [Node.Distinct, hnumbers]
    exact List.nodup_range'
  · cases h

end ChunkWatch.Syntax
