import ChunkWatch.Proofs.Extract.Folding
import ChunkWatch.Proofs.Extract.Reached

namespace ChunkWatch.Language

open Emission (marked)
open Syntax (Label Node Tree)

variable {l : Language} {t : Tree} {text : Bytes} {n : Node} {ns xs ys folded : List Node}
  {e : Emission} {represented others : List Nat}

def SameOn (ns : List Node) (represented others : List Nat) : Prop :=
  ∀ m ∈ Node.forest ns, m.id ∈ represented ↔ m.id ∈ others

namespace SameOn

theorem children (h : SameOn (n :: ns) represented others) :
    SameOn n.children represented others := by
  intro m hm
  apply h m
  rw [Node.forest, Node.preorder_eq]
  exact List.mem_append_left _ (List.mem_cons_of_mem n hm)

theorem tail (h : SameOn (n :: ns) represented others) : SameOn ns represented others :=
  fun m hm => h m (List.mem_append_right _ hm)

theorem marked (h : SameOn ns represented others) (es : List Emission) :
    SameOn ns (Emission.marked es represented) (Emission.marked es others) := by
  intro m hm
  rw [Emission.mem_marked, Emission.mem_marked, h m hm]

end SameOn

theorem ownEmissions_congr (h : SameOn (n :: ns) represented others) :
    ownEmissions l text n folded represented = ownEmissions l text n folded others := by
  have hsame {m : Node} (hm : m ∈ n.preorder) : m.id ∈ represented ↔ m.id ∈ others :=
    h m (List.mem_append_left _ hm)
  rw [ownEmissions, ownEmissions]
  cases l.rule? n.kind with
  | none => rfl
  | some r =>
    rw [Option.bind_some, Option.bind_some, emissionOf?, emissionOf?]
    cases hname : r.name.firstCapture? text n with
    | none => rfl
    | some name =>
      have hn := hsame (Node.mem_preorder_self n)
      have hx := hsame (Query.mem_preorder_of_firstCapture? hname)
      simp only [Option.bind_eq_bind, Option.bind_some, hn, hx]

/-- What is emitted below some nodes depends on the marks of these nodes only. -/
theorem emissionsBelow_congr_and_emissionsAmong_congr : (∀ n : Node, ∀ represented others,
      SameOn n.children represented others →
        emissionsBelow l text n represented = emissionsBelow l text n others) ∧
    ∀ ns : List Node, ∀ folded represented others, SameOn ns represented others →
      emissionsAmong l text ns folded represented = emissionsAmong l text ns folded others := by
  apply Node.induction_with_forest
  case node =>
    intro label ns ih represented others h
    rw [emissionsBelow, emissionsBelow]
    exact ih [] represented others h
  case nil =>
    intro folded represented others _
    rw [emissionsAmong, emissionsAmong]
  case cons =>
    intro n ns ihn ihns folded represented others h
    rw [emissionsAmong, emissionsAmong]
    split
    · exact ihns _ _ _ h.tail
    · split
      · exact ihns _ _ _ h.tail
      · split
        · exact ihns _ _ _ h.tail
        · simp only [ownEmissions_congr h]
          rw [ihn _ _ (h.children.marked _), ihns _ _ _ (h.tail.marked _)]

theorem emissionsAmong_append (xs ys folded : List Node) (represented : List Nat) :
    emissionsAmong l text (xs ++ ys) folded represented =
      emissionsAmong l text xs folded represented ++
        emissionsAmong l text ys (l.waiting folded xs)
          (marked (emissionsAmong l text xs folded represented) represented) := by
  induction xs generalizing folded represented with
  | nil =>
    rw [emissionsAmong]
    rfl
  | cons n xs ih =>
    rw [List.cons_append, emissionsAmong, emissionsAmong, waiting_cons]
    split
    next hn =>
      rw [wait_of_anonymous hn]
      exact ih _ _
    next hn =>
      rw [Bool.not_eq_false] at hn
      split
      next hskip =>
        rw [wait_of_not_folds hn fun h => h.2 hskip]
        exact ih _ _
      next hskip =>
        split
        next hfold =>
          rw [wait_of_folds hn ⟨hfold, hskip⟩]
          exact ih _ _
        next hfold =>
          simp only [wait_of_not_folds hn fun h => hfold h.1, ih, Emission.marked_append,
            List.append_assoc]

theorem mem_forest_of_marked (he : e ∈ emissionsAmong l text ns folded represented) {i : Nat}
    (hi : i ∈ e.marks) : ∃ m ∈ Node.forest ns, m.id = i := by
  have hnode : e.node ∈ Node.forest ns :=
    (nodes_sublist_below_and_among.2 ns folded represented).subset (List.mem_map_of_mem he)
  have hbelow := Node.preorder_subset_forest hnode
  obtain ⟨⟨r, hr⟩, -⟩ := emits_of_mem_below_and_among.2 ns folded represented e he
  rw [Emission.marks, List.mem_append, Option.mem_toList, Option.map_eq_some_iff] at hi
  rcases hi with ⟨m, hm, rfl⟩ | hi
  · exact ⟨m, hbelow (hr.summary_mem hm), rfl⟩
  · exact ⟨e.name, hbelow hr.name_mem, (List.mem_singleton.mp hi).symm⟩

theorem sameOn_marked (h : ((Node.forest (xs ++ ys)).map Node.id).Nodup) :
    SameOn ys (marked (emissionsAmong l text xs folded []) []) [] := by
  rw [Node.forest_append, List.map_append, List.nodup_append] at h
  intro m hm
  refine iff_of_false (fun hmarked => ?_) List.not_mem_nil
  obtain ⟨e, he, hi⟩ := (Emission.mem_marked.mp hmarked).resolve_right List.not_mem_nil
  obtain ⟨k, hk, hid⟩ := mem_forest_of_marked he hi
  exact h.2.2 _ (List.mem_map_of_mem hk) _ (List.mem_map_of_mem hm) hid

def Sealed (l : Language) (ns : List Node) : Prop :=
  ∀ n ∈ (ns.filter Node.isNamed).getLast?, n.kind ∈ l.spec.skip ∨ n.kind ∉ l.spec.fold

instance (l : Language) (ns : List Node) : Decidable (l.Sealed ns) :=
  inferInstanceAs (Decidable (∀ n ∈ _, _))

theorem Sealed.waiting_eq_nil (h : l.Sealed ns) : l.waiting [] ns = [] := by
  have hrun := longestRun_waiting l ns
  rcases List.eq_nil_or_concat' (l.waiting [] ns) with hnil | ⟨init, n, hconcat⟩
  · exact hnil
  · obtain ⟨front, hfront⟩ := hrun.suffix
    rw [hconcat, ← List.append_assoc] at hfront
    have hlast : n ∈ (ns.filter Node.isNamed).getLast? := by
      rw [← hfront, List.getLast?_concat]
      rfl
    have hfolds : l.Folds n := hrun.folds n (by simp [hconcat])
    exact absurd (h n hlast) (by simp [hfolds.1, hfolds.2])

/-- The chunks of a tree whose top nodes come in two parts are those of the parts, and this also
when other nodes are put between them, if no folded node waits for a chunk where a part ends. -/
theorem extract_append {label : Label} (l : Language) (source text : Bytes)
    (h : (Node.node label (xs ++ ys)).Distinct) (hxs : l.Sealed xs) :
    l.extract ⟨.node label (xs ++ ys), source⟩ text =
        l.extract ⟨.node label xs, source⟩ text ++ l.extract ⟨.node label ys, source⟩ text ∧
      ∀ ds, (Node.node label (xs ++ (ds ++ ys))).Distinct → l.Sealed ds →
        l.extract ⟨.node label (xs ++ (ds ++ ys)), source⟩ text =
          l.extract ⟨.node label xs, source⟩ text ++ l.extract ⟨.node label ds, source⟩ text ++
            l.extract ⟨.node label ys, source⟩ text := by
  have hparts {us vs : List Node} (h : ((Node.forest (us ++ vs)).map Node.id).Nodup)
      (hus : l.Sealed us) : l.extract ⟨.node label (us ++ vs), source⟩ text =
        l.extract ⟨.node label us, source⟩ text ++ l.extract ⟨.node label vs, source⟩ text := by
    simp only [extract_eq_emissions, emissions, emissionsBelow]
    rw [emissionsAmong_append, hus.waiting_eq_nil,
      emissionsBelow_congr_and_emissionsAmong_congr.2 vs [] _ [] (sameOn_marked h), List.map_append]
    rfl
  have htop {ns : List Node} (h : (Node.node label ns).Distinct) :
      ((Node.forest ns).map Node.id).Nodup := by
    rw [Node.Distinct, Node.preorder, List.map_cons, List.nodup_cons] at h
    exact h.2
  refine ⟨hparts (htop h) hxs, fun ds hall hds => ?_⟩
  have hbehind : ((Node.forest (ds ++ ys)).map Node.id).Nodup := by
    have hall := htop hall
    rw [Node.forest_append, List.map_append, List.nodup_append] at hall
    exact hall.2.1
  rw [hparts (htop hall) hxs, hparts hbehind hds, List.append_assoc]

def importingPart (start count : Nat) : List Node :=
  (importingTree.root.children.drop start).take count

theorem extract_append_in_importing :
    (Node.node importingTree.root.label (importingPart 0 2 ++ importingPart 6 2)).Distinct ∧
      importing.Sealed (importingPart 0 2) ∧ importing.Sealed (importingPart 2 4) ∧
      importingPart 0 2 ++ (importingPart 2 4 ++ importingPart 6 2)
        = importingTree.root.children ∧
      importing.extract ⟨importingTree.root, importingText⟩ importingText =
        importing.extract ⟨.node importingTree.root.label (importingPart 0 2), importingText⟩
            importingText ++
          importing.extract ⟨.node importingTree.root.label (importingPart 2 4), importingText⟩
            importingText ++
          importing.extract ⟨.node importingTree.root.label (importingPart 6 2), importingText⟩
            importingText ∧
      (importing.extract ⟨.node importingTree.root.label (importingPart 2 4), importingText⟩
        importingText).map Chunk.name = ["f"] := by
  have hdistinct :
      (Node.node importingTree.root.label (importingPart 0 2 ++ importingPart 6 2)).Distinct := by
    decide +kernel
  have hfirst : importing.Sealed (importingPart 0 2) := by decide +kernel
  have hsecond : importing.Sealed (importingPart 2 4) := by decide +kernel
  have hall : (Node.node importingTree.root.label
      (importingPart 0 2 ++ (importingPart 2 4 ++ importingPart 6 2))).Distinct := by
    decide +kernel
  obtain ⟨-, hparts⟩ := extract_append importing importingText importingText hdistinct hfirst
  exact ⟨hdistinct, hfirst, hsecond, rfl, hparts (importingPart 2 4) hall hsecond,
    by decide +kernel⟩

end ChunkWatch.Language
