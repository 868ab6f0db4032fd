import ChunkWatch.Proofs.Extract.Emission

namespace ChunkWatch

open Syntax (Label Node Tree)

namespace Span

structure Proper (s : Span) : Prop where
  bytes : s.startByte ≤ s.endByte
  firstLine : 1 ≤ s.startLine
  lines : s.startLine ≤ s.endLine

structure Inside (inner outer : Span) : Prop where
  startByte : outer.startByte ≤ inner.startByte
  endByte : inner.endByte ≤ outer.endByte
  startLine : outer.startLine ≤ inner.startLine
  endLine : inner.endLine ≤ outer.endLine

def Before (a b : Span) : Prop := a.endByte ≤ b.startByte

theorem lineAt_mono (text : Bytes) {m n : Nat} (h : m ≤ n) : lineAt text m ≤ lineAt text n :=
  Nat.succ_le_succ ((List.take_prefix_take_left h).count_le 10)

theorem one_le_lineAt (text : Bytes) (n : Nat) : 1 ≤ lineAt text n := Nat.le_add_left 1 _

variable {text : Bytes} {a b : Label}

theorem proper_of (h : a.start ≤ a.stop) : (of text a).Proper :=
  ⟨h, one_le_lineAt text a.start, lineAt_mono text h⟩

theorem inside_of_within (h : a.Within b) : (of text a).Inside (of text b) :=
  ⟨h.start, h.stop, lineAt_mono text h.start, lineAt_mono text h.stop⟩

end Span

structure Chunk.Placed (c : Chunk) : Prop where
  span : c.span.Proper
  summary : ∀ s ∈ c.summary, s.Proper ∧ s.Inside c.span
  annotations : ∀ a ∈ c.annotations, a.span.Proper ∧ a.span.Before c.span
  ordered : c.annotations.Pairwise fun a b => a.span.Before b.span

namespace Language

variable {l : Language} {t : Tree} {text : Bytes} {e : Emission}

theorem placed_of_mem (h : t.root.Ranged) (he : e ∈ l.emissions t text) :
    (e.chunk t text).Placed := by
  have hnode : e.node.label.Within t.root.label := h.within (node_mem_forest he)
  obtain ⟨r, hr⟩ := emits_of_mem he
  obtain ⟨m, hm, hsiblings⟩ := siblings_of_mem he
  obtain ⟨hinside, hordered⟩ := h m hm
  obtain ⟨hfolded, -, hbefore⟩ := List.pairwise_append.mp (hordered.sublist hsiblings)
  constructor
  · exact Span.proper_of hnode.order
  · intro s hs
    obtain ⟨n, hn, rfl⟩ := Option.map_eq_some_iff.mp hs
    have hwithin : n.label.Within e.node.label := by
      rcases (h.of_mem (node_mem_preorder he)).eq_or_within (hr.summary_mem hn) with rfl | hwithin
      · exact ⟨Nat.le_refl _, hnode.order, Nat.le_refl _⟩
      · exact hwithin
    exact ⟨Span.proper_of hwithin.order, Span.inside_of_within hwithin⟩
  · intro a ha
    obtain ⟨n, hn, rfl⟩ := List.mem_map.mp ha
    have hchild := hinside n (hsiblings.subset (List.mem_append_left _ hn))
    exact ⟨Span.proper_of hchild.order, hbefore n hn e.node (List.mem_singleton_self _)⟩
  · exact List.pairwise_map.mpr hfolded

/-- The chunks of a tree are in the order of their nodes: the later of two starts no earlier than
the other one, and is inside it or behind it. -/
theorem chunks_in_order (l : Language) (t : Tree) (text : Bytes) (h : t.root.Ranged) :
    l.extract t text = (l.emissions t text).map (Emission.chunk t text) ∧
      ((l.emissions t text).map Emission.node).Sublist (Node.forest t.root.children) ∧
      ((l.extract t text).Pairwise fun a b => a.span.startByte ≤ b.span.startByte ∧
        (b.span.Inside a.span ∨ a.span.Before b.span)) ∧
      ∀ c ∈ l.extract t text, c.Placed := by
  have hextract := extract_eq_emissions l t text
  refine ⟨hextract, nodes_sublist l t text, ?_, ?_⟩
  · have hfollows := List.pairwise_map.mp (h.follows.sublist (nodes_sublist_preorder l t text))
    rw [hextract, List.pairwise_map]
    refine hfollows.imp_of_mem fun {a b} ha _ hab => ?_
    have hproper := (h.within (node_mem_forest ha)).order
    rcases hab with hwithin | hbehind
    · exact ⟨hwithin.start, .inl (Span.inside_of_within hwithin)⟩
    · exact ⟨Nat.le_trans hproper hbehind, .inr hbehind⟩
  · rw [hextract]
    intro c hc
    obtain ⟨e, he, rfl⟩ := List.mem_map.mp hc
    exact placed_of_mem h he

theorem chunks_in_order_in_decorated : decoratedTree.root.Ranged ∧
    ((decorating.extract decoratedTree decoratedText).map fun c =>
      (c.span.startByte, c.span.endByte, c.summary.map Span.startByte)) =
      [(4, 33, some 7), (20, 33, none)] ∧
    ((decorating.extract decoratedTree decoratedText).Pairwise fun a b =>
      a.span.startByte ≤ b.span.startByte ∧ (b.span.Inside a.span ∨ a.span.Before b.span)) ∧
    ∀ c ∈ decorating.extract decoratedTree decoratedText, c.Placed := by
  have hranged : decoratedTree.root.Ranged := by decide +kernel
  obtain ⟨-, -, horder, hplaced⟩ := chunks_in_order decorating decoratedTree decoratedText hranged
  exact ⟨hranged, by decide +kernel, horder, hplaced⟩

end Language

end ChunkWatch
