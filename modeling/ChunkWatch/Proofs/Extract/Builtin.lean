import ChunkWatch.Proofs.Extract.Reached
import ChunkWatch.Proofs.Language.Builtin

namespace ChunkWatch.Language

open Query (Slot Way declaratorSlot nameSlot search)
open Syntax (Node Tree)

variable {s : Spec} {l : Language} {t : Tree} {text : Bytes} {n : Node} {kind : String}
  {r : ChunkRule.Compiled}

theorem concordant_of_plain (hnames : ∀ k ∈ nameKinds, k ∉ s.chunks.map Prod.fst)
    (hwrappers : ∀ k ∈ wrapperKinds, k ∉ s.chunks.map Prod.fst)
    (h : Reads s (fun _ => Plain) l) : l.Concordant where
  name := by
    intro text n r x hr hx
    exact h.rule?_eq_none (hnames _ (Query.kind_mem_of_firstCapture? (h.of_rule? hr).name hx))
  summary := by
    intro text n r q m _ hr hq
    rw [(h.of_rule? hr).summary] at hq
    cases hq
  wrapper := by
    intro text n r x _ hkind hr
    rw [h.rule?_eq_none (hwrappers _ hkind)] at hr
    cases hr

def NamedBy (l : Language) (w : Way) : Prop :=
  ∀ c : Node, c.isNamed → c.kind = w.first.kind →
    ∃ r, l.rule? c.kind = some r ∧ ∀ text, r.name.firstCapture? text c = search w.rest c

theorem exists_child_of_namedBy {ways : List (Nat × Way)} {x : Node}
    (h : ∀ w ∈ ways, l.NamedBy w.2) (hx : n.children.findSome? (Query.findAny ways) = some x) :
    ∃ c ∈ n.children, ∃ r, l.rule? c.kind = some r ∧ r.name.firstCapture? text c = some x := by
  obtain ⟨c, hc, w, hw, hfits, hsearch⟩ := Query.exists_of_findSome?_findAny hx
  obtain ⟨hnamed, hkind⟩ := Slot.of_fits hfits
  obtain ⟨r, hr, hname⟩ := h w hw c hnamed hkind
  exact ⟨c, hc, r, hr, (hname text).trans hsearch⟩

theorem Decorating.name (h : Decorating kind r) :
    Query.capturesOnly nameKinds (r.name.clauses.map Prod.fst) := by
  cases h with
  | definition _ => rfl
  | decorated => decide

theorem Reads.namedBy_decorated (h : Reads .python Decorating l) :
    ∀ w ∈ Query.decoratedWays, l.NamedBy w.2 := by
  intro w hw c hnamed hkind
  have hways : ∀ w ∈ Query.decoratedWays,
      w.2.first.kind ∈ definitionKinds ∧ w.2.rest = [nameSlot] := by decide
  have hruled : ∀ k ∈ definitionKinds, k ∈ Spec.python.chunks.map Prod.fst := by decide +kernel
  obtain ⟨hfirst, hrest⟩ := hways w hw
  rw [← hkind] at hfirst
  obtain ⟨r, hr⟩ := h.exists_rule? (hruled _ hfirst)
  refine ⟨r, hr, fun text => ?_⟩
  have hdecorating := h.of_rule? hr
  generalize hk : c.kind = k at hdecorating hfirst
  cases hdecorating with
  | definition _ => rw [(Query.name_startsWith k).firstCapture?_eq_search hnamed hk, hrest]
  | decorated => exact absurd hfirst (by decide)

theorem Reads.summary_of_decorating (h : Reads .python Decorating l) {q : Query} {m : Node}
    (hn : n.isNamed) (hr : l.rule? n.kind = some r) (hq : r.summary = some q)
    (hm : q.firstCapture? text n = some m) : ∃ s, l.rule? m.kind = some s ∧
      ∀ x, s.name.firstCapture? text m = some x → r.name.firstCapture? text n = some x := by
  have hdecorating := h.of_rule? hr
  generalize hkind : n.kind = k at hdecorating
  cases hdecorating with
  | definition _ => cases hq
  | decorated =>
    cases hq
    rw [Query.summary_startsWith.firstCapture?_eq hn hkind] at hm
    obtain ⟨c, -, w, hw, hfits, hsearch⟩ := Query.exists_of_findSome?_findAny hm
    have hways : ∀ w ∈ Query.summaryWays,
        w.2.rest = [] ∧ ∃ v ∈ Query.decoratedWays, v.2 = ⟨w.2.first, [nameSlot]⟩ := by decide
    obtain ⟨hend, v, hv, hway⟩ := hways w hw
    rw [hend] at hsearch
    cases hsearch
    have hnamedBy := h.namedBy_decorated v hv
    rw [hway] at hnamedBy
    obtain ⟨hmnamed, hmkind⟩ := Slot.of_fits hfits
    obtain ⟨s, hs, hname⟩ := hnamedBy m hmnamed hmkind
    refine ⟨s, hs, fun x hx => ?_⟩
    rw [hname] at hx
    rw [Query.decorated_startsWith.firstCapture?_eq hn hkind]
    exact Query.decorated_of_summary hm hx

theorem concordant_of_decorating (h : Reads .python Decorating l) : l.Concordant where
  name := by
    intro text n r x hr hx
    have hnames : ∀ k ∈ nameKinds, k ∉ Spec.python.chunks.map Prod.fst := by decide +kernel
    exact h.rule?_eq_none (hnames _ (Query.kind_mem_of_firstCapture? (h.of_rule? hr).name hx))
  summary := h.summary_of_decorating
  wrapper := by
    intro text n r x hn hwrapper hr hx
    have hdecorating := h.of_rule? hr
    generalize hkind : n.kind = k at hdecorating hwrapper
    cases hdecorating with
    | definition hdefinition =>
      have hapart : ∀ k ∈ wrapperKinds, k ∉ definitionKinds := by decide
      exact absurd hdefinition (hapart k hwrapper)
    | decorated =>
      rw [Query.decorated_startsWith.firstCapture?_eq hn hkind] at hx
      exact exists_child_of_namedBy h.namedBy_decorated hx

theorem Exporting.name (h : Exporting kind r) :
    Query.capturesOnly nameKinds (r.name.clauses.map Prod.fst) := by
  cases h with
  | declaration _ => rfl
  | declarator _ => rfl
  | exported => decide

theorem Exporting.summary (h : Exporting kind r) : r.summary = none := by
  cases h <;> rfl

theorem Exporting.firstCapture?_declaration (h : Exporting n.kind r)
    (hkind : n.kind ∈ functionKinds) (hn : n.isNamed) :
    r.name.firstCapture? text n = search [nameSlot] n := by
  generalize hk : n.kind = k at h hkind
  cases h with
  | declaration _ => exact (Query.name_startsWith k).firstCapture?_eq_search hn hk
  | declarator hkind' =>
    have hapart : ∀ k ∈ functionKinds, k ∉ variableKinds := by decide
    exact absurd hkind' (hapart k hkind)
  | exported => exact absurd hkind (by decide)

theorem Exporting.firstCapture?_declarator (h : Exporting n.kind r)
    (hkind : n.kind ∈ variableKinds) (hn : n.isNamed) :
    r.name.firstCapture? text n = search [declaratorSlot, nameSlot] n := by
  generalize hk : n.kind = k at h hkind
  cases h with
  | declaration hkind' =>
    have hapart : ∀ k ∈ functionKinds, k ∉ variableKinds := by decide
    exact absurd hkind (hapart k hkind')
  | declarator _ => exact (Query.declarator_startsWith k).firstCapture?_eq_search hn hk
  | exported => exact absurd hkind (by decide)

theorem Reads.namedBy_exported (h : Reads .javascript Exporting l) :
    ∀ w ∈ Query.exportedWays, l.NamedBy w.2 := by
  intro w hw c hnamed hkind
  have hways : ∀ w ∈ Query.exportedWays,
      w.2.first.kind ∈ functionKinds ∧ w.2.rest = [nameSlot] ∨
        w.2.first.kind ∈ variableKinds ∧ w.2.rest = [declaratorSlot, nameSlot] := by decide
  have hruled : ∀ k ∈ functionKinds ++ variableKinds,
      k ∈ Spec.javascript.chunks.map Prod.fst := by decide +kernel
  rcases hways w hw with ⟨hfirst, hrest⟩ | ⟨hfirst, hrest⟩
  · rw [← hkind] at hfirst
    obtain ⟨r, hr⟩ := h.exists_rule? (hruled _ (List.mem_append_left _ hfirst))
    refine ⟨r, hr, fun text => ?_⟩
    rw [(h.of_rule? hr).firstCapture?_declaration hfirst hnamed, hrest]
  · rw [← hkind] at hfirst
    obtain ⟨r, hr⟩ := h.exists_rule? (hruled _ (List.mem_append_right _ hfirst))
    refine ⟨r, hr, fun text => ?_⟩
    rw [(h.of_rule? hr).firstCapture?_declarator hfirst hnamed, hrest]

theorem concordant_of_exporting (h : Reads .javascript Exporting l) : l.Concordant where
  name := by
    intro text n r x hr hx
    have hnames : ∀ k ∈ nameKinds, k ∉ Spec.javascript.chunks.map Prod.fst := by decide +kernel
    exact h.rule?_eq_none (hnames _ (Query.kind_mem_of_firstCapture? (h.of_rule? hr).name hx))
  summary := by
    intro text n r q m _ hr hq
    rw [(h.of_rule? hr).summary] at hq
    cases hq
  wrapper := by
    intro text n r x hn hwrapper hr hx
    have hexporting := h.of_rule? hr
    generalize hkind : n.kind = k at hexporting hwrapper
    cases hexporting with
    | declaration hkind' =>
      have hapart : ∀ k ∈ wrapperKinds, k ∉ functionKinds := by decide
      exact absurd hkind' (hapart k hwrapper)
    | declarator hkind' =>
      have hapart : ∀ k ∈ wrapperKinds, k ∉ variableKinds := by decide
      exact absurd hkind' (hapart k hwrapper)
    | exported =>
      rw [Query.exported_startsWith.firstCapture?_eq hn hkind] at hx
      exact exists_child_of_namedBy h.namedBy_exported hx

theorem compile_builtin (hs : s ∈ Spec.builtin) :
    ∃ l, Language.compile s = .ok l ∧ l.Concordant := by
  rw [Spec.builtin] at hs
  rcases List.mem_cons.mp hs with rfl | hs
  · obtain ⟨l, hl⟩ := reads_go
    exact ⟨l, hl.compile, concordant_of_plain (by decide +kernel) (by decide +kernel) hl⟩
  · rcases List.mem_cons.mp hs with rfl | hs
    · obtain ⟨l, hl⟩ := reads_python
      exact ⟨l, hl.compile, concordant_of_decorating hl⟩
    · rw [List.mem_singleton.mp hs]
      obtain ⟨l, hl⟩ := reads_javascript
      exact ⟨l, hl.compile, concordant_of_exporting hl⟩

/-- Each name that a rule finds below the root of a tree is the name of exactly one chunk. -/
structure NamedOnce (l : Language) (t : Tree) (text : Bytes) : Prop where
  chunks : l.extract t text = (l.emissions t text).map (Emission.chunk t text)
  reached : ∀ e ∈ l.emissions t text, Reached l t.root e.node ∧ ∃ r, Emits l text e r
  names : ∀ x, (∃ e ∈ l.emissions t text, e.name = x) ↔ Names l text t.root x
  once : ((l.emissions t text).map fun e => e.name.id).Nodup
  wrapped : ∀ e ∈ l.emissions t text, e.node.kind ∈ wrapperKinds → ∃ c ∈ e.node.children,
    (∃ r, l.rule? c.kind = some r ∧ r.name.firstCapture? text c = some e.name) ∧
      ∀ f ∈ l.emissions t text, f.node ≠ c

/-- The built-in languages can be read, and in every tree each name that their rules find at a node
that the walk comes to is the name of one chunk, and no other node is. -/
theorem named_once (hs : s ∈ Spec.builtin) : ∃ l, Language.compile s = .ok l ∧
    ∀ (t : Tree) (text : Bytes), t.root.Distinct → NamedOnce l t text := by
  obtain ⟨l, hl, hconcordant⟩ := compile_builtin hs
  refine ⟨l, hl, fun t text hdistinct => ?_⟩
  constructor
  · exact extract_eq_emissions l t text
  · exact fun e he => ⟨reached_below_and_among.1 t.root [] e he, emits_of_mem he⟩
  · exact fun x => hconcordant.names_iff hdistinct
  · exact nodup_names l t text
  · exact fun e he => hconcordant.wrapped he

theorem named_once_in_decorated : Spec.python ∈ Spec.builtin ∧ decoratedTree.root.Distinct ∧
    ∃ l, Language.compile .python = .ok l ∧ NamedOnce l decoratedTree decoratedText ∧
      ∃ e ∈ l.emissions decoratedTree decoratedText, e.name.id = 5 := by
  have hpython : Spec.python ∈ Spec.builtin := List.mem_cons_of_mem _ List.mem_cons_self
  have hdistinct : decoratedTree.root.Distinct :=
    @Syntax.distinct_of_ofRows? decoratedText decoratedRows _ rfl
  obtain ⟨l, hl, honce⟩ := named_once hpython
  have hnamed := honce decoratedTree decoratedText hdistinct
  refine ⟨hpython, hdistinct, l, hl, hnamed, ?_⟩
  obtain ⟨k, hk⟩ := reads_python
  cases hl.symm.trans hk.compile
  obtain ⟨n, hn, hkind, hnode, hfirst⟩ : ∃ n ∈ decoratedTree.root.children,
      n.kind = "decorated_definition" ∧ n.isNamed ∧
        (n.children.findSome? (Query.findAny Query.decoratedWays)).map Node.id = some 5 := by
    decide +kernel
  obtain ⟨x, hx, hid⟩ := Option.map_eq_some_iff.mp hfirst
  have hruled : n.kind ∈ Spec.python.chunks.map Prod.fst := by
    rw [hkind]
    decide +kernel
  obtain ⟨c, hc⟩ := hk.exists_rule? hruled
  have hname : c.name.firstCapture? decoratedText n = some x := by
    have hdecorated := hk.of_rule? hc
    rw [hkind] at hdecorated
    cases hdecorated with
    | definition hdefinition => exact absurd hdefinition (by decide)
    | decorated => rw [Query.decorated_startsWith.firstCapture?_eq hnode hkind, hx]
  have henters : l.Enters n := by
    refine ⟨hnode, ?_, ?_⟩
    · rw [hk.spec, hkind]
      decide
    · rw [hk.spec, hkind]
      decide
  obtain ⟨e, he, rfl⟩ := (hnamed.names x).mpr ⟨n, c, .child hn henters, hc, hname⟩
  exact ⟨e, he, hid⟩

end ChunkWatch.Language
