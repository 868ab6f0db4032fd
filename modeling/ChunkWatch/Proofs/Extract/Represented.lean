import ChunkWatch.Proofs.Extract.Emission

namespace ChunkWatch

open Syntax (Node Tree)

namespace Emission

variable {e : Emission} {es fs : List Emission} {represented : List Nat}

def Represents (e : Emission) (n : Node) : Prop := n.id = e.name.id ∨ ∃ m ∈ e.summary, n.id = m.id

theorem represents_iff {n : Node} : e.Represents n ↔ n.id ∈ e.marks := by
  rw [Represents, marks]
  cases e.summary <;> simp [or_comm]

/-- No emission has a node or a name that stands for a chunk when its turn comes. -/
def Fresh : List Nat → List Emission → Prop
  | _, [] => True
  | represented, e :: es => e.node.id ∉ represented ∧ e.name.id ∉ represented ∧
      Fresh (e.marks ++ represented) es

theorem fresh_append : Fresh represented (es ++ fs) ↔
    Fresh represented es ∧ Fresh (marked es represented) fs := by
  induction es generalizing represented with
  | nil => simp [Fresh, marked]
  | cons e es ih => simp [Fresh, marked, ih, and_assoc]

theorem Fresh.not_mem (h : Fresh represented es) :
    ∀ e ∈ es, e.node.id ∉ represented ∧ e.name.id ∉ represented := by
  induction es generalizing represented with
  | nil => exact List.forall_mem_nil _
  | cons e es ih =>
    obtain ⟨hnode, hname, hrest⟩ := h
    refine List.forall_mem_cons.mpr ⟨⟨hnode, hname⟩, fun f hf => ?_⟩
    obtain ⟨hf, hfname⟩ := ih hrest f hf
    exact ⟨fun hmem => hf (List.mem_append_right _ hmem),
      fun hmem => hfname (List.mem_append_right _ hmem)⟩

theorem Fresh.pairwise (h : Fresh represented es) :
    es.Pairwise fun a b => ¬a.Represents b.node ∧ a.name.id ≠ b.name.id := by
  induction es generalizing represented with
  | nil => exact .nil
  | cons e es ih =>
    refine List.pairwise_cons.mpr ⟨fun f hf => ?_, ih h.2.2⟩
    obtain ⟨hnode, hname⟩ := h.2.2.not_mem f hf
    rw [represents_iff]
    refine ⟨fun hmem => hnode (List.mem_append_left _ hmem), fun heq => hname ?_⟩
    simp [marks, heq]

end Emission

namespace Language

open Emission (Fresh)

variable {l : Language} {text : Bytes}

theorem fresh_ownEmissions {n : Node} {folded : List Node} {represented : List Nat} :
    Fresh represented (ownEmissions l text n folded represented) := by
  rcases ownEmissions_cases (l := l) with hnone | ⟨e, he, hone⟩
  · rw [hnone]
    trivial
  · obtain ⟨rfl, -, hnode, hname, -⟩ := mem_ownEmissions_iff.mp he
    rw [hone]
    exact ⟨hnode, hname, trivial⟩

theorem fresh_below_and_among : (∀ n : Node, ∀ represented,
      Fresh represented (emissionsBelow l text n represented)) ∧
    ∀ ns : List Node, ∀ folded represented,
      Fresh represented (emissionsAmong l text ns folded represented) := by
  apply Node.induction_with_forest
  case node =>
    intro label ns ih represented
    rw [emissionsBelow]
    exact ih [] represented
  case nil =>
    intro folded represented
    rw [emissionsAmong]
    trivial
  case cons =>
    intro n ns ihn ihns folded represented
    rw [emissionsAmong]
    split
    · exact ihns _ _
    · split
      · exact ihns _ _
      · split
        · exact ihns _ _
        · rw [Emission.fresh_append, Emission.fresh_append]
          exact ⟨⟨fresh_ownEmissions, ihn _⟩, ihns _ _⟩

/-- The chunks of a tree come from different nodes and have different nodes as their names, and no
chunk comes from a node that is the name or the summary of another one. -/
theorem represented_once (l : Language) (t : Tree) (text : Bytes) (h : t.root.Distinct) :
    l.extract t text = (l.emissions t text).map (Emission.chunk t text) ∧
      (∀ e ∈ l.emissions t text, e.node ∈ Node.forest t.root.children ∧ ∃ r, Emits l text e r) ∧
      ((l.emissions t text).map fun e => e.name.id).Nodup ∧
      ((l.emissions t text).map fun e => e.node.id).Nodup ∧
      (l.emissions t text).Pairwise fun a b => ¬a.Represents b.node ∧ ¬b.Represents a.node := by
  have hfresh : Fresh [] (l.emissions t text) := fresh_below_and_among.1 t.root []
  have hbelow := nodes_sublist_preorder l t text
  have hapart : (l.emissions t text).Pairwise fun a b => Node.Apart a.node b.node :=
    List.pairwise_map.mp (h.apart.sublist hbelow)
  refine ⟨extract_eq_emissions l t text, fun e he => ⟨node_mem_forest he, emits_of_mem he⟩,
    List.pairwise_map.mpr (hfresh.pairwise.imp And.right), ?_, ?_⟩
  · have hnodup := (hbelow.map Node.id).nodup h
    rwa [List.map_map] at hnodup
  · refine (hfresh.pairwise.and hapart).imp_of_mem fun {a b} _ hb ⟨⟨hearlier, _⟩, hlater⟩ => ?_
    obtain ⟨r, hr⟩ := emits_of_mem hb
    refine ⟨hearlier, ?_⟩
    rintro (heq | ⟨m, hm, heq⟩)
    · exact hlater _ hr.name_mem heq.symm
    · exact hlater m (hr.summary_mem hm) heq.symm

theorem represented_once_in_decorated : decoratedTree.root.Distinct ∧
    ((decorating.emissions decoratedTree decoratedText).map fun e =>
      (e.node.id, e.name.id, e.summary.map Node.id)) = [(2, 5, some 4), (6, 7, none)] ∧
    decorating.extract decoratedTree decoratedText =
      (decorating.emissions decoratedTree decoratedText).map
        (Emission.chunk decoratedTree decoratedText) ∧
    (decorating.emissions decoratedTree decoratedText).Pairwise fun a b =>
      ¬a.Represents b.node ∧ ¬b.Represents a.node := by
  have hdistinct : decoratedTree.root.Distinct :=
    @Syntax.distinct_of_ofRows? decoratedText decoratedRows _ rfl
  have honce := represented_once decorating decoratedTree decoratedText hdistinct
  exact ⟨hdistinct, by decide +kernel, honce.1, honce.2.2.2.2⟩

end Language

end ChunkWatch
