import Mathlib.Data.List.Induction
import ChunkWatch.Proofs.Extract.Emission

namespace ChunkWatch.Language

open Syntax (Label Node Tree)

variable {l : Language} {text : Bytes} {n : Node} {ns folded run : List Node} {e : Emission}

def Folds (l : Language) (n : Node) : Prop := n.kind ∈ l.spec.fold ∧ n.kind ∉ l.spec.skip

def wait (l : Language) (folded : List Node) (n : Node) : List Node :=
  if n.isNamed = false then folded
  else if n.kind ∈ l.spec.skip then []
  else if n.kind ∈ l.spec.fold then folded ++ [n]
  else []

def waiting (l : Language) (folded ns : List Node) : List Node := ns.foldl l.wait folded

theorem waiting_cons : l.waiting folded (n :: ns) = l.waiting (l.wait folded n) ns := rfl

theorem waiting_concat : l.waiting folded (ns ++ [n]) = l.wait (l.waiting folded ns) n := by
  rw [waiting, waiting, List.foldl_append]
  rfl

theorem wait_of_anonymous (h : n.isNamed = false) : l.wait folded n = folded := if_pos h

theorem wait_of_folds (h : n.isNamed) (k : l.Folds n) : l.wait folded n = folded ++ [n] := by
  rw [wait, if_neg (by simp [h]), if_neg k.2, if_pos k.1]

theorem wait_of_not_folds (h : n.isNamed) (k : ¬l.Folds n) : l.wait folded n = [] := by
  rw [Folds, not_and, not_not] at k
  rw [wait, if_neg (by simp [h])]
  split
  · rfl
  next hskip => exact if_neg fun hfold => hskip (k hfold)

/-- The longest run of folded nodes at the end of some siblings, of which only the named ones
count. -/
structure LongestRun (l : Language) (siblings run : List Node) : Prop where
  suffix : run <:+ siblings.filter Node.isNamed
  folds : ∀ n ∈ run, l.Folds n
  longest : ∀ other, other <:+ siblings.filter Node.isNamed → (∀ n ∈ other, l.Folds n) →
    other <:+ run

namespace LongestRun

theorem nil (l : Language) : l.LongestRun [] [] where
  suffix := List.suffix_rfl
  folds := List.forall_mem_nil _
  longest _ h _ := h

theorem anonymous (h : l.LongestRun ns run) (hn : n.isNamed = false) :
    l.LongestRun (ns ++ [n]) run := by
  have hnamed : (ns ++ [n]).filter Node.isNamed = ns.filter Node.isNamed := by simp [hn]
  refine ⟨?_, h.folds, ?_⟩
  · rw [hnamed]
    exact h.suffix
  · rw [hnamed]
    exact h.longest

theorem concat (h : l.LongestRun ns run) (hn : n.isNamed) (hfolds : l.Folds n) :
    l.LongestRun (ns ++ [n]) (run ++ [n]) := by
  have hnamed : (ns ++ [n]).filter Node.isNamed = ns.filter Node.isNamed ++ [n] := by simp [hn]
  constructor
  · rw [hnamed]
    exact List.suffix_concat_iff.mpr (.inr ⟨run, rfl, h.suffix⟩)
  · exact List.forall_mem_append.mpr ⟨h.folds, List.forall_mem_singleton.mpr hfolds⟩
  · intro other hother hall
    rw [hnamed] at hother
    rcases List.suffix_concat_iff.mp hother with rfl | ⟨init, rfl, hinit⟩
    · exact List.nil_suffix
    · have hrest := h.longest init hinit fun m hm => hall m (List.mem_append_left _ hm)
      exact List.suffix_concat_iff.mpr (.inr ⟨init, rfl, hrest⟩)

theorem ended (ns : List Node) (hn : n.isNamed) (hfolds : ¬l.Folds n) :
    l.LongestRun (ns ++ [n]) [] := by
  have hnamed : (ns ++ [n]).filter Node.isNamed = ns.filter Node.isNamed ++ [n] := by simp [hn]
  refine ⟨List.nil_suffix, List.forall_mem_nil _, fun other hother hall => ?_⟩
  rw [hnamed] at hother
  rcases List.suffix_concat_iff.mp hother with rfl | ⟨init, rfl, -⟩
  · exact List.suffix_rfl
  · exact absurd (hall n (List.mem_append_right _ (List.mem_singleton_self n))) hfolds

end LongestRun

theorem longestRun_waiting (l : Language) (ns : List Node) :
    l.LongestRun ns (l.waiting [] ns) := by
  induction ns using List.reverseRecOn with
  | nil => exact .nil l
  | append_singleton ns n ih =>
    rw [waiting_concat]
    cases hn : n.isNamed with
    | false =>
      rw [wait_of_anonymous hn]
      exact ih.anonymous hn
    | true =>
      by_cases hfolds : l.Folds n
      · rw [wait_of_folds hn hfolds]
        exact ih.concat hn hfolds
      · rw [wait_of_not_folds hn hfolds]
        exact .ended ns hn hfolds

/-- The node of an emission is one of some siblings, and its folded nodes are those that wait
there. -/
def Behind (l : Language) (e : Emission) (folded siblings : List Node) : Prop :=
  ∃ before after, siblings = before ++ e.node :: after ∧ e.folded = l.waiting folded before

theorem Behind.cons (h : l.Behind e (l.wait folded n) ns) : l.Behind e folded (n :: ns) := by
  obtain ⟨before, after, rfl, hfolded⟩ := h
  exact ⟨n :: before, after, rfl, hfolded⟩

theorem behind_below_and_among :
    (∀ n : Node, ∀ represented, ∀ e ∈ emissionsBelow l text n represented,
      ∃ m ∈ n.preorder, l.Behind e [] m.children) ∧
    ∀ ns : List Node, ∀ folded represented, ∀ e ∈ emissionsAmong l text ns folded represented,
      l.Behind e folded ns ∨ ∃ m ∈ Node.forest ns, l.Behind e [] m.children := by
  apply Node.induction_with_forest
  case node =>
    intro label ns ih represented e he
    rw [emissionsBelow] at he
    rw [Node.preorder]
    rcases ih [] represented e he with hbehind | ⟨m, hm, hbehind⟩
    · exact ⟨_, List.mem_cons_self, hbehind⟩
    · exact ⟨m, List.mem_cons_of_mem _ hm, hbehind⟩
  case nil =>
    intro folded represented e he
    rw [emissionsAmong] at he
    cases he
  case cons =>
    intro n ns ihn ihns folded represented e he
    have hlater {folded' : List Node} {represented' : List Nat} (hwait : l.wait folded n = folded')
        (he : e ∈ emissionsAmong l text ns folded' represented') :
        l.Behind e folded (n :: ns) ∨ ∃ m ∈ Node.forest (n :: ns), l.Behind e [] m.children := by
      rcases ihns folded' represented' e he with hbehind | ⟨m, hm, hbehind⟩
      · rw [← hwait] at hbehind
        exact .inl hbehind.cons
      · exact .inr ⟨m, List.mem_append_right _ hm, hbehind⟩
    rw [emissionsAmong] at he
    split at he
    next hn => exact hlater (wait_of_anonymous hn) he
    next hn =>
      rw [Bool.not_eq_false] at hn
      split at he
      next hskip => exact hlater (wait_of_not_folds hn fun h => h.2 hskip) he
      next hskip =>
        split at he
        next hfold => exact hlater (wait_of_folds hn ⟨hfold, hskip⟩) he
        next hfold =>
          rw [List.mem_append, List.mem_append] at he
          rcases he with (he | he) | he
          · obtain ⟨rfl, rfl, -⟩ := mem_ownEmissions_iff.mp he
            exact .inl ⟨[], ns, rfl, rfl⟩
          · obtain ⟨m, hm, hbehind⟩ := ihn _ e he
            exact .inr ⟨m, List.mem_append_left _ hm, hbehind⟩
          · exact hlater (wait_of_not_folds hn fun h => hfold h.1) he

theorem folded_ownEmissions_sublist {represented : List Nat} :
    ((ownEmissions l text n folded represented).flatMap Emission.folded).Sublist folded := by
  rcases ownEmissions_cases (l := l) with hnone | ⟨e, he, hone⟩
  · rw [hnone]
    exact List.nil_sublist _
  · rw [hone, List.flatMap_singleton, (mem_ownEmissions_iff.mp he).2.1]

theorem folded_sublist_below_and_among : (∀ n : Node, ∀ represented,
      ((emissionsBelow l text n represented).flatMap Emission.folded).Sublist
        (Node.forest n.children)) ∧
    ∀ ns : List Node, ∀ folded represented,
      ((emissionsAmong l text ns folded represented).flatMap Emission.folded).Sublist
        (folded ++ Node.forest ns) := by
  apply Node.induction_with_forest
  case node =>
    intro label ns ih represented
    rw [emissionsBelow]
    exact ih [] represented
  case nil =>
    intro folded represented
    rw [emissionsAmong]
    exact List.nil_sublist _
  case cons =>
    intro n ns ihn ihns folded represented
    have hlater {es : List Emission} (h : (es.flatMap Emission.folded).Sublist (Node.forest ns)) :
        (es.flatMap Emission.folded).Sublist (folded ++ Node.forest (n :: ns)) :=
      h.trans ((List.sublist_append_right _ _).trans (List.sublist_append_right _ _))
    rw [emissionsAmong]
    split
    · exact (ihns folded _).trans ((List.sublist_append_right _ _).append_left folded)
    · split
      · exact hlater (ihns [] _)
      · split
        · refine (ihns (folded ++ [n]) _).trans ?_
          rw [List.append_assoc, Node.forest, Node.preorder_eq]
          refine List.Sublist.append_left (List.Sublist.append ?_ (.refl _)) folded
          exact List.singleton_sublist.mpr List.mem_cons_self
        · rw [List.flatMap_append, List.flatMap_append, Node.forest, Node.preorder_eq,
            ← List.append_assoc]
          refine List.Sublist.append ?_ (ihns [] _)
          exact folded_ownEmissions_sublist.append ((ihn _).cons n)

/-- The comments of a chunk are the longest run of folded nodes before its node, as they stand in
the tree and in the text, and no node is in the comments of two chunks. -/
theorem folded_run (l : Language) (t : Tree) (text : Bytes) (h : t.root.Distinct) :
    l.extract t text = (l.emissions t text).map (Emission.chunk t text) ∧
      (∀ e ∈ l.emissions t text,
        (∃ m ∈ t.root.preorder, ∃ before after, m.children = before ++ e.node :: after ∧
          l.LongestRun before e.folded) ∧
        (e.chunk t text).annotations = e.folded.map fun n => ⟨n.kind, .of t.text n.label,
          ((text.slice? n.label.start n.label.stop).getD []).toStringLossy⟩) ∧
      ((l.emissions t text).flatMap fun e => e.folded.map Node.id).Nodup := by
  refine ⟨extract_eq_emissions l t text, fun e he => ⟨?_, rfl⟩, ?_⟩
  · obtain ⟨m, hm, before, after, hchildren, hfolded⟩ := behind_below_and_among.1 t.root [] e he
    exact ⟨m, hm, before, after, hchildren, hfolded ▸ longestRun_waiting l before⟩
  · have hbelow : ((l.emissions t text).flatMap Emission.folded).Sublist t.root.preorder := by
      rw [Node.preorder_eq]
      exact (folded_sublist_below_and_among.1 t.root []).cons t.root
    have hnodup := (hbelow.map Node.id).nodup h
    rwa [List.map_flatMap] at hnodup

-- Two functions to see it by.  Before the first one an import stands between comments, and a
-- semicolon too.
def importing : Language :=
  { decorating with spec := { decorating.spec with skip := ["import_statement"] } }

def importingText : Bytes :=
  Bytes.ofString "# a\nimport o\n# b\n;\n# c\ndef f(): pass\n# d\ndef g(): pass"

def importingRows : List Syntax.Row := [
  ⟨0, "module", true, none, 0, 54⟩,
  ⟨1, "comment", true, none, 0, 3⟩,
  ⟨1, "import_statement", true, none, 4, 12⟩,
  ⟨1, "comment", true, none, 13, 16⟩,
  ⟨1, ";", false, none, 17, 18⟩,
  ⟨1, "comment", true, none, 19, 22⟩,
  ⟨1, "function_definition", true, none, 23, 36⟩,
  ⟨2, "identifier", true, some "name", 27, 28⟩,
  ⟨1, "comment", true, none, 37, 40⟩,
  ⟨1, "function_definition", true, none, 41, 54⟩,
  ⟨2, "identifier", true, some "name", 45, 46⟩]

def importingTree : Tree :=
  (Tree.ofRows? importingText importingRows).getD ⟨.node ⟨0, "", true, none, 0, 0⟩ [], []⟩

theorem folded_run_behind_import : importingTree.root.Distinct ∧
    ((importing.emissions importingTree importingText).map fun e =>
      (e.node.id, e.folded.map Node.id)) = [(6, [3, 5]), (9, [8])] ∧
    (∀ e ∈ importing.emissions importingTree importingText,
      ∃ m ∈ importingTree.root.preorder, ∃ before after, m.children = before ++ e.node :: after ∧
        importing.LongestRun before e.folded) ∧
    ((importing.extract importingTree importingText).map fun c =>
      c.annotations.map Annotation.text) = [["# b", "# c"], ["# d"]] := by
  have hdistinct : importingTree.root.Distinct :=
    @Syntax.distinct_of_ofRows? importingText importingRows _ rfl
  obtain ⟨-, hruns, -⟩ := folded_run importing importingTree importingText hdistinct
  exact ⟨hdistinct, by decide +kernel, fun e he => (hruns e he).1, by decide +kernel⟩

end ChunkWatch.Language
