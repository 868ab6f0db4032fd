import ChunkWatch.Proofs.Extract
import ChunkWatch.Proofs.Query.Captures

namespace ChunkWatch

open Syntax (Node Tree)

structure Emission where
  node : Node
  name : Node
  parent : Option Node
  summary : Option Node
  folded : List Node

namespace Emission

def chunk (t : Tree) (text : Bytes) (e : Emission) : Chunk where
  kind := e.node.kind
  name := Language.nodeText text e.name
  parentName := e.parent.map (Language.nodeText text)
  span := .of t.text e.node.label
  summary := e.summary.map fun m => .of t.text m.label
  annotations := e.folded.map (Language.annotationOf t text)

def marks (e : Emission) : List Nat := (e.summary.map Node.id).toList ++ [e.name.id]

def marked (es : List Emission) (represented : List Nat) : List Nat :=
  es.foldl (fun acc e => e.marks ++ acc) represented

theorem marked_append (es fs : List Emission) (represented : List Nat) :
    marked (es ++ fs) represented = marked fs (marked es represented) :=
  List.foldl_append

end Emission

namespace Language

variable {l : Language} {t : Tree} {text : Bytes}

def emissionOf? (r : ChunkRule.Compiled) (text : Bytes) (n : Node) (folded : List Node)
    (represented : List Nat) : Option Emission := do
  let name ← r.name.firstCapture? text n
  if n.id ∈ represented ∨ name.id ∈ represented then none
  return ⟨n, name, r.parent.bind (·.firstCapture? text n), r.summary.bind (·.firstCapture? text n),
    folded⟩

def ownEmissions (l : Language) (text : Bytes) (n : Node) (folded : List Node)
    (represented : List Nat) : List Emission :=
  ((l.rule? n.kind).bind (emissionOf? · text n folded represented)).toList

mutual

def emissionsBelow (l : Language) (text : Bytes) : Node → List Nat → List Emission
  | .node _ ns, represented => emissionsAmong l text ns [] represented

def emissionsAmong (l : Language) (text : Bytes) :
    List Node → List Node → List Nat → List Emission
  | [], _, _ => []
  | n :: ns, folded, represented =>
    if n.isNamed = false then emissionsAmong l text ns folded represented
    else if n.kind ∈ l.spec.skip then emissionsAmong l text ns [] represented
    else if n.kind ∈ l.spec.fold then emissionsAmong l text ns (folded ++ [n]) represented
    else
      let own := ownEmissions l text n folded represented
      let inside := emissionsBelow l text n (Emission.marked own represented)
      own ++ inside ++ emissionsAmong l text ns [] (Emission.marked (own ++ inside) represented)

end

def emissions (l : Language) (t : Tree) (text : Bytes) : List Emission :=
  emissionsBelow l text t.root []

theorem chunkOf?_eq (r : ChunkRule.Compiled) (t : Tree) (text : Bytes) (n : Node)
    (folded : List Node) (represented : List Nat) :
    chunkOf? r t text n (folded.map (annotationOf t text)) represented =
      (emissionOf? r text n folded represented).map fun e =>
        (e.chunk t text, e.marks ++ represented) := by
  rw [chunkOf?, emissionOf?]
  cases r.name.firstCapture? text n with
  | none => rfl
  | some name =>
    by_cases h : n.id ∈ represented ∨ name.id ∈ represented
    · simp [h]
    · simp [h, Emission.chunk, Emission.marks]

theorem ownChunk_eq (n : Node) (folded : List Node) (represented : List Nat) :
    ownChunk l t text n (folded.map (annotationOf t text)) represented =
      ((ownEmissions l text n folded represented).map (Emission.chunk t text),
        Emission.marked (ownEmissions l text n folded represented) represented) := by
  rw [ownChunk, ownEmissions]
  cases l.rule? n.kind with
  | none => rfl
  | some r =>
    rw [Option.bind_some, Option.bind_some, chunkOf?_eq]
    cases emissionOf? r text n folded represented <;> rfl

theorem chunksBelow_eq_and_chunksAmong_eq : (∀ n : Node, ∀ represented,
      chunksBelow l t text n represented =
        ((emissionsBelow l text n represented).map (Emission.chunk t text),
          Emission.marked (emissionsBelow l text n represented) represented)) ∧
    ∀ ns : List Node, ∀ folded represented,
      chunksAmong l t text ns (folded.map (annotationOf t text)) represented =
        ((emissionsAmong l text ns folded represented).map (Emission.chunk t text),
          Emission.marked (emissionsAmong l text ns folded represented) represented) := by
  apply Node.induction_with_forest
  case node =>
    intro label ns ih represented
    rw [chunksBelow, emissionsBelow]
    exact ih [] represented
  case nil =>
    intro folded represented
    rw [chunksAmong, emissionsAmong]
    rfl
  case cons =>
    intro n ns ihn ihns folded represented
    rw [chunksAmong, emissionsAmong]
    split
    · exact ihns folded represented
    · split
      · exact ihns [] represented
      · split
        · have hfolded := ihns (folded ++ [n]) represented
          rw [List.map_append] at hfolded
          exact hfolded
        · have hnone := fun represented => ihns [] represented
          simp only [List.map_nil] at hnone
          simp only [ownChunk_eq, ihn, hnone, Emission.marked_append, List.map_append]

theorem extract_eq_emissions (l : Language) (t : Tree) (text : Bytes) :
    l.extract t text = (l.emissions t text).map (Emission.chunk t text) := by
  obtain ⟨k, -, hsteps, hend⟩ := Walk.run_steps l t text (.start t.root)
  have hout := hsteps.outcome_eq (Walk.start_aligned t.root)
  rw [Walk.outcome, hend, Option.elim_none, List.append_nil, Walk.start_outcome,
    chunksBelow_eq_and_chunksAmong_eq.1] at hout
  exact hout

/-- How the rules of a language lead to an emission. -/
structure Emits (l : Language) (text : Bytes) (e : Emission) (r : ChunkRule.Compiled) : Prop where
  rule : l.rule? e.node.kind = some r
  name : r.name.firstCapture? text e.node = some e.name
  parent : e.parent = r.parent.bind (·.firstCapture? text e.node)
  summary : e.summary = r.summary.bind (·.firstCapture? text e.node)

variable {n : Node} {folded : List Node} {represented : List Nat} {e : Emission}

theorem mem_ownEmissions_iff : e ∈ ownEmissions l text n folded represented ↔
    e.node = n ∧ e.folded = folded ∧ n.id ∉ represented ∧ e.name.id ∉ represented ∧
      ∃ r, Emits l text e r := by
  rw [ownEmissions, Option.mem_toList, Option.bind_eq_some_iff]
  constructor
  · rintro ⟨r, hr, he⟩
    obtain ⟨name, hname, he⟩ := Option.bind_eq_some_iff.mp he
    by_cases h : n.id ∈ represented ∨ name.id ∈ represented
    · rw [if_pos h] at he
      cases he
    · rw [if_neg h] at he
      cases he
      obtain ⟨hn, hname'⟩ := not_or.mp h
      exact ⟨rfl, rfl, hn, hname', r, hr, hname, rfl, rfl⟩
  · rintro ⟨rfl, rfl, hnode, hname, r, hr⟩
    refine ⟨r, hr.rule, ?_⟩
    rw [emissionOf?, hr.name]
    simp [hnode, hname, ← hr.parent, ← hr.summary]

theorem ownEmissions_cases : ownEmissions l text n folded represented = [] ∨
    ∃ e ∈ ownEmissions l text n folded represented,
      ownEmissions l text n folded represented = [e] := by
  rw [ownEmissions]
  cases (l.rule? n.kind).bind (emissionOf? · text n folded represented) with
  | none => exact .inl rfl
  | some e => exact .inr ⟨e, List.mem_singleton_self e, rfl⟩

theorem nodes_ownEmissions_sublist :
    ((ownEmissions l text n folded represented).map Emission.node).Sublist [n] := by
  rcases ownEmissions_cases (l := l) with hnone | ⟨e, he, hone⟩
  · rw [hnone]
    exact List.nil_sublist _
  · rw [hone, List.map_singleton, (mem_ownEmissions_iff.mp he).1]

theorem nodes_sublist_below_and_among : (∀ n : Node, ∀ represented,
      ((emissionsBelow l text n represented).map Emission.node).Sublist
        (Node.forest n.children)) ∧
    ∀ ns : List Node, ∀ folded represented,
      ((emissionsAmong l text ns folded represented).map Emission.node).Sublist
        (Node.forest ns) := by
  apply Node.induction_with_forest
  case node =>
    intro label ns ih represented
    rw [emissionsBelow]
    exact ih [] represented
  case nil =>
    intro folded represented
    rw [emissionsAmong]
    exact List.nil_sublist _
  case cons =>
    intro n ns ihn ihns folded represented
    have hlater {es : List Emission} (h : (es.map Emission.node).Sublist (Node.forest ns)) :
        (es.map Emission.node).Sublist (Node.forest (n :: ns)) :=
      h.trans (List.sublist_append_right _ _)
    rw [emissionsAmong]
    split
    · exact hlater (ihns _ _)
    · split
      · exact hlater (ihns _ _)
      · split
        · exact hlater (ihns _ _)
        · rw [List.map_append, List.map_append, Node.forest, Node.preorder_eq]
          exact (nodes_ownEmissions_sublist.append (ihn _)).append (ihns _ _)

theorem nodes_sublist (l : Language) (t : Tree) (text : Bytes) :
    ((l.emissions t text).map Emission.node).Sublist (Node.forest t.root.children) :=
  nodes_sublist_below_and_among.1 t.root []

theorem nodes_sublist_preorder (l : Language) (t : Tree) (text : Bytes) :
    ((l.emissions t text).map Emission.node).Sublist t.root.preorder := by
  rw [Node.preorder_eq]
  exact (nodes_sublist l t text).cons t.root

theorem emits_of_mem_below_and_among :
    (∀ n : Node, ∀ represented, ∀ e ∈ emissionsBelow l text n represented,
      (∃ r, Emits l text e r) ∧
        ∃ m ∈ n.preorder, (e.folded ++ [e.node]).Sublist m.children) ∧
    ∀ ns : List Node, ∀ folded represented, ∀ e ∈ emissionsAmong l text ns folded represented,
      (∃ r, Emits l text e r) ∧
        ((e.folded ++ [e.node]).Sublist (folded ++ ns) ∨
          ∃ m ∈ Node.forest ns, (e.folded ++ [e.node]).Sublist m.children) := by
  apply Node.induction_with_forest
  case node =>
    intro label ns ih represented e he
    rw [emissionsBelow] at he
    rw [Node.preorder]
    obtain ⟨hemits, hsiblings | ⟨m, hm, hsiblings⟩⟩ := ih [] represented e he
    · exact ⟨hemits, _, List.mem_cons_self, hsiblings⟩
    · exact ⟨hemits, m, List.mem_cons_of_mem _ hm, hsiblings⟩
  case nil =>
    intro folded represented e he
    rw [emissionsAmong] at he
    cases he
  case cons =>
    intro n ns ihn ihns folded represented e he
    have hlater {folded' : List Node} {represented' : List Nat}
        (he : e ∈ emissionsAmong l text ns folded' represented')
        (hfolded : (folded' ++ ns).Sublist (folded ++ n :: ns)) :
        (∃ r, Emits l text e r) ∧ ((e.folded ++ [e.node]).Sublist (folded ++ n :: ns) ∨
          ∃ m ∈ Node.forest (n :: ns), (e.folded ++ [e.node]).Sublist m.children) := by
      obtain ⟨hemits, hsiblings | ⟨m, hm, hsiblings⟩⟩ := ihns folded' represented' e he
      · exact ⟨hemits, .inl (hsiblings.trans hfolded)⟩
      · exact ⟨hemits, .inr ⟨m, List.mem_append_right _ hm, hsiblings⟩⟩
    have hbehind : ns.Sublist (folded ++ n :: ns) :=
      (List.sublist_cons_self n ns).trans (List.sublist_append_right _ _)
    rw [emissionsAmong] at he
    split at he
    · exact hlater he ((List.sublist_cons_self n ns).append_left folded)
    · split at he
      · exact hlater he hbehind
      · split at he
        · exact hlater he (by rw [List.append_assoc, List.singleton_append])
        · rw [List.mem_append, List.mem_append] at he
          rcases he with (he | he) | he
          · obtain ⟨rfl, rfl, -, -, hemits⟩ := mem_ownEmissions_iff.mp he
            refine ⟨hemits, .inl ((List.Sublist.refl _).append ?_)⟩
            exact List.singleton_sublist.mpr List.mem_cons_self
          · obtain ⟨hemits, m, hm, hsiblings⟩ := ihn _ e he
            exact ⟨hemits, .inr ⟨m, List.mem_append_left _ hm, hsiblings⟩⟩
          · exact hlater he hbehind

variable {t : Tree}

theorem emits_of_mem (h : e ∈ l.emissions t text) : ∃ r, Emits l text e r :=
  (emits_of_mem_below_and_among.1 t.root [] e h).1

theorem siblings_of_mem (h : e ∈ l.emissions t text) :
    ∃ m ∈ t.root.preorder, (e.folded ++ [e.node]).Sublist m.children :=
  (emits_of_mem_below_and_among.1 t.root [] e h).2

theorem node_mem_forest (h : e ∈ l.emissions t text) : e.node ∈ Node.forest t.root.children :=
  (nodes_sublist l t text).subset (List.mem_map_of_mem h)

theorem node_mem_preorder (h : e ∈ l.emissions t text) : e.node ∈ t.root.preorder :=
  (nodes_sublist_preorder l t text).subset (List.mem_map_of_mem h)

theorem Emits.name_mem {r : ChunkRule.Compiled} (h : Emits l text e r) :
    e.name ∈ e.node.preorder :=
  Query.mem_preorder_of_firstCapture? h.name

theorem Emits.summary_mem {r : ChunkRule.Compiled} (h : Emits l text e r) {m : Node}
    (hm : e.summary = some m) : m ∈ e.node.preorder := by
  rw [h.summary] at hm
  obtain ⟨q, -, hq⟩ := Option.bind_eq_some_iff.mp hm
  exact Query.mem_preorder_of_firstCapture? hq

-- A comment and a decorated function `f`, in which there is a function `g`, to see it by.
def kindQuery (kind : String) (child : Query.Pattern) (wanted : String) : Query :=
  ⟨[(.ofPattern (.node (.kind kind) [] (.cons false child .nil) false), [])], wanted⟩

def decorating : Language where
  spec := { Spec.empty "decorating" .python with fold := ["comment"] }
  rules :=
    let name := Query.Pattern.capture "name" (.leaf (.kind "identifier"))
    let summary := Query.Pattern.capture "summary" (.leaf (.kind "function_definition"))
    let inner := Query.Pattern.node (.kind "function_definition") [] (.cons false name .nil) false
    [("function_definition", ⟨kindQuery "function_definition" name "name", none, none⟩),
      ("decorated_definition", ⟨kindQuery "decorated_definition" inner "name", none,
        some (kindQuery "decorated_definition" summary "summary")⟩)]
  roles := []

def decoratedText : Bytes := Bytes.ofString "# f\n@d\ndef f():\n    def g(): pass"

def decoratedRows : List Syntax.Row := [
  ⟨0, "module", true, none, 0, 33⟩,
  ⟨1, "comment", true, none, 0, 3⟩,
  ⟨1, "decorated_definition", true, none, 4, 33⟩,
  ⟨2, "decorator", true, none, 4, 6⟩,
  ⟨2, "function_definition", true, some "definition", 7, 33⟩,
  ⟨3, "identifier", true, some "name", 11, 12⟩,
  ⟨3, "function_definition", true, none, 20, 33⟩,
  ⟨4, "identifier", true, some "name", 24, 25⟩]

def decoratedTree : Tree :=
  (Tree.ofRows? decoratedText decoratedRows).getD ⟨.node ⟨0, "", true, none, 0, 0⟩ [], []⟩

end Language

end ChunkWatch
