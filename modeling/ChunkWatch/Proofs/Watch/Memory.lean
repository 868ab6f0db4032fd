import ChunkWatch.Proofs.Walk.Renewal
import ChunkWatch.Proofs.Watch.Removal

namespace ChunkWatch.Watch

open Classifier (repositoryDir)
open Ignore (Cache Layers ignoreFileName loadNested)
open Ignore.Layers (Below along)

namespace Move

/-- Rules are remembered of a directory, and what its ignore file says is no longer the same. -/
def Outdates (m : Move Cache) (dir : Path) : Prop :=
  (m.before.state.memory.get? dir).isSome ∧ loadNested m.before.fs dir ≠ loadNested m.after.fs dir

/-- The oracle is asked about the ignore file of a directory: an event tells of the file, or it is
found in a directory that arrives. -/
def Revisits (w : Settings Cache) (m : Move Cache) (dir : Path) : Prop :=
  (∃ p kind q, m.Classifies p kind ∧ w.Concerns p kind q ∧
    (m.before.fs.exists? (w.classifier.root.join q) ∨
      ¬(w.classifier.root.join q).isIn m.before.state.dirs) ∧
    (w.classifier.root.join q).same (dir.push ignoreFileName)) ∨
  ∃ q ∈ m.contributed w, (w.classifier.root.join q).same (dir.push ignoreFileName)

end Move

/-- Each change to the rules of a directory while others are remembered is followed up. -/
def Settings.FollowsUp (w : Settings Cache) (dir : Path) (ms : List (Move Cache)) : Prop :=
  ∀ before m after, ms = before ++ m :: after → m.Outdates dir → ∃ n ∈ after, n.Revisits w dir

theorem Settings.FollowsUp.tail {w : Settings Cache} {dir : Path} {m : Move Cache}
    {ms : List (Move Cache)} (h : w.FollowsUp dir (m :: ms)) : w.FollowsUp dir ms :=
  fun before n after hms => h (m :: before) n after (congrArg (m :: ·) hms)

namespace State

section

variable {σ : Type}

@[simp] theorem register_memory (fs : FileSystem) (s : State σ) (dir : Path) :
    (s.register fs dir).memory = s.memory := by
  rw [register]
  split
  · rfl
  · split <;> rfl

@[simp] theorem registerAll_memory (fs : FileSystem) (dirs : List Path) (s : State σ) :
    (dirs.foldl (register fs) s).memory = s.memory := by
  induction dirs generalizing s with
  | nil => rfl
  | cons d ds ih => rw [List.foldl_cons, ih, register_memory]

theorem arrive_memory (w : Settings σ) (fs : FileSystem) (q : Path) (s : State σ) :
    (s.arrive w fs q).2.memory = (s.scan w fs (w.classifier.root.join q)).2.memory := by
  rw [arrive]
  split
  · rfl
  · exact registerAll_memory ..

theorem mem_arrive_iff {w : Settings σ} {fs : FileSystem} {q r : Path} {s : State σ} :
    r ∈ (s.arrive w fs q).1 ↔ s.cancelled = false ∧
      ∃ e ∈ (s.scan w fs (w.classifier.root.join q)).1, e.isDir = false ∧ r = q.join e.path := by
  rw [arrive]
  dsimp only
  rw [(keeps_scan w fs (w.classifier.root.join q) s).cancelled]
  cases s.cancelled with
  | true => simp
  | false =>
    simp only [Bool.false_eq_true, if_false, List.mem_map, List.mem_filter, Bool.not_eq_true',
      and_assoc, true_and, @eq_comm _ r]

end

variable {w : Settings Cache} {l : Layers} {fs : FileSystem} {s t : State Cache}
  {ds : List Component} {p q r : Path} {kind : ChangeKind} {ps : List Path}

theorem renews_scan (hl : w.classifier.IsLayered l) (hs : fs.Sound) (dir : Path)
    (s : State Cache) : l.Renews fs s.memory (s.scan w fs dir).2.memory := by
  rw [scan]
  split
  next hrun => exact hl.renews_run hs hrun
  · exact fun _ _ => id

theorem current_scan (hl : w.classifier.IsLayered l) (hs : fs.Sound) {dir : Path}
    (hdir : dir.isAbsolute) {e : SourceEntry} (he : e ∈ (s.scan w fs dir).1)
    (hfile : (dir.join e.path).components
      = w.classifier.root.components ++ (ds ++ [.name ignoreFileName])) :
    (s.scan w fs dir).2.memory.Current fs (along l.root ds) := by
  rw [scan] at he ⊢
  split at he
  next hrun =>
    exact hl.currentOfFound_run hs hdir hrun e (List.mem_reverse.mp he) ds hfile
  · cases he

theorem renews_of_classified (hl : w.classifier.IsLayered l) (hs : fs.Sound)
    (k : Classified w fs s p kind ps t) : l.Renews fs s.memory t.memory := by
  have hasked {q : Path} {isDir verdict : Bool} {memory : Cache}
      (h : (w.classifier.shouldIgnoreEntry fs (w.classifier.root.join q) isDir).run s.memory
        = (verdict, memory)) : l.Renews fs s.memory memory := by
    have hrenews := hl.renews fs (w.classifier.root.join q) isDir s.memory
    rwa [h] at hrenews
  cases k with
  | unconcerned => exact fun _ _ => id
  | forgotten _ _ ht =>
    obtain ⟨-, rfl⟩ := forget?_eq_some_iff.mp ht
    exact fun _ _ => id
  | ignored _ _ h => exact hasked h
  | file _ _ _ h => exact hasked h
  | @arrived q memory _ _ h =>
    rw [arrive_memory]
    exact (hasked h).trans (renews_scan hl hs _ { s with memory })
  | touched _ _ h => exact hasked h

theorem current_of_asked (hl : w.classifier.IsLayered l) (houtside : .name repositoryDir ∉ ds)
    (hfile : (w.classifier.root.join q).components
      = w.classifier.root.components ++ (ds ++ [.name ignoreFileName]))
    {isDir verdict : Bool} {memory : Cache}
    (h : (w.classifier.shouldIgnoreEntry fs (w.classifier.root.join q) isDir).run s.memory
      = (verdict, memory)) : memory.Current fs (along l.root ds) := by
  rw [← hl.absolute_join q] at hfile
  have hcurrent : ((w.classifier.shouldIgnoreEntry fs (w.classifier.root.join q) isDir).run
      s.memory).2.Current fs (along l.root ds) := hl.current_of_file hfile houtside
  rwa [h] at hcurrent

theorem current_of_reached (hl : w.classifier.IsLayered l) (hs : fs.Sound)
    (houtside : .name repositoryDir ∉ ds) (k : Classified w fs s p kind ps t)
    (hq : w.Concerns p kind q)
    (hreached : fs.exists? (w.classifier.root.join q) ∨ ¬(w.classifier.root.join q).isIn s.dirs)
    (hfile : (w.classifier.root.join q).components
      = w.classifier.root.components ++ (ds ++ [.name ignoreFileName])) :
    t.memory.Current fs (along l.root ds) := by
  have hbelow := (hl.below_of_components hfile).toward ⟨_, rfl⟩
  cases k with
  | unconcerned hno => exact absurd hq (hno q)
  | forgotten hr hgone ht =>
    rw [hq.unique hr] at hreached
    exact absurd (forget?_eq_some_iff.mp ht).1 (hreached.resolve_left hgone)
  | ignored hr _ h =>
    rw [hq.unique hr] at hfile
    exact current_of_asked hl houtside hfile h
  | file hr _ _ h =>
    rw [hq.unique hr] at hfile
    exact current_of_asked hl houtside hfile h
  | @arrived r memory hr _ h =>
    rw [hq.unique hr] at hfile
    rw [arrive_memory]
    exact renews_scan hl hs _ { s with memory } ds hbelow (current_of_asked hl houtside hfile h)
  | touched hr _ h =>
    rw [hq.unique hr] at hfile
    exact current_of_asked hl houtside hfile h

theorem current_of_contributed (hl : w.classifier.IsLayered l) (hs : fs.Sound)
    (houtside : .name repositoryDir ∉ ds) (k : Classified w fs s p kind ps t) (hr : r ∈ ps)
    (hfile : (w.classifier.root.join r).components
      = w.classifier.root.components ++ (ds ++ [.name ignoreFileName])) :
    t.memory.Current fs (along l.root ds) := by
  cases k with
  | file _ _ _ h =>
    rw [List.mem_singleton.mp hr] at hfile
    exact current_of_asked hl houtside hfile h
  | @arrived q memory hq =>
    obtain ⟨-, e, he, -, rfl⟩ := mem_arrive_iff.mp hr
    rw [Path.join_assoc hq.below] at hfile
    rw [arrive_memory]
    exact current_scan hl hs (hl.isAbsolute_join q) he hfile
  | _ => cases hr

end State

namespace Session

section

variable {σ : Type} {w : Settings σ} {h : Handler} {s t : Session σ} {x : Step}

theorem memory_step (hx : s.step? w h x = some t) (hne : x ≠ .classify) :
    t.state.memory = s.state.memory := by
  have hshutdown (s : State σ) : s.shutdown.memory = s.memory := by
    rw [State.shutdown]
    split <;> rfl
  cases takes_of_step? hx with
  | classify => exact absurd rfl hne
  | accept =>
    rw [State.accept]
    split <;> rfl
  | noticeCancel => exact hshutdown _
  | fire =>
    rw [State.fire]
    split <;> rfl
  | handOver =>
    obtain ⟨stats, heq⟩ := s.state.takeBatch_eq
    rw [handOver_state, heq]
  | finishHandler => rw [finishHandler_state]
  | close => exact hshutdown _
  | _ => rfl

theorem classify_step (hx : s.step? w h .classify = some t) : ∃ e es paths,
    s.intake = .classifying (e :: es) paths ∧ t.fs = s.fs ∧
      t.state = (s.state.classify w s.fs e).2 ∧
      (Move.mk s .classify t).contributed w = (s.state.classify w s.fs e).1 := by
  cases takes_of_step? hx with
  | classify hin => exact ⟨_, _, _, hin, rfl, rfl, by rw [Move.contributed, hin]⟩

end

variable {w : Settings Cache} {h : Handler} {l : Layers} {s t : Session Cache} {x : Step}
  {ds : List Component} {ms : List (Move Cache)}

theorem current_step (hl : w.classifier.IsLayered l) (hx : s.step? w h x = some t)
    (hs : s.fs.Sound) (hds : Below ds)
    (hcurrent : s.state.memory.Current s.fs (along l.root ds)) :
    t.state.memory.Current t.fs (along l.root ds) ∨
      (Move.mk s x t).Outdates (along l.root ds) := by
  by_cases hclassify : x = .classify
  · subst hclassify
    obtain ⟨e, es, paths, -, hfs, hstate, -⟩ := classify_step hx
    rw [hfs, hstate]
    left
    cases e with
    | error reason => exact hcurrent
    | change p kind =>
      exact State.renews_of_classified hl hs (State.classified ..) ds hds hcurrent
  · rw [or_iff_not_imp_right]
    intro hkept m hm
    rw [memory_step hx hclassify] at hm
    have hsame : loadNested s.fs (along l.root ds) = loadNested t.fs (along l.root ds) := by
      by_contra hne
      exact hkept ⟨by simp [hm], hne⟩
    rw [← hsame]
    exact hcurrent m hm

theorem current_of_revisits (hl : w.classifier.IsLayered l) (hx : s.step? w h x = some t)
    (hs : s.fs.Sound) (hds : Below ds) (houtside : .name repositoryDir ∉ ds)
    (hrevisits : (Move.mk s x t).Revisits w (along l.root ds)) :
    t.state.memory.Current t.fs (along l.root ds) := by
  have hfile {q : Path} (h : q.same ((along l.root ds).push ignoreFileName)) :
      q.components = w.classifier.root.components ++ (ds ++ [.name ignoreFileName]) := by
    rw [Path.same_iff.mp h, Path.components_push Layers.isName_ignoreFileName,
      Layers.components_along hds, hl.root, List.append_assoc]
  rcases hrevisits with ⟨p, kind, q, ⟨es, paths, rfl, hin⟩, hq, hreached, hsame⟩ | ⟨q, hq, hsame⟩
  · obtain ⟨e, es', paths', hin', hfs, hstate, -⟩ := classify_step hx
    rw [hin'] at hin
    cases hin
    rw [hfs, hstate]
    exact State.current_of_reached hl hs houtside (State.classified ..) hq hreached (hfile hsame)
  · by_cases hclassify : x = .classify
    · subst hclassify
      obtain ⟨e, es, paths, -, hfs, hstate, hcontributed⟩ := classify_step hx
      rw [hcontributed] at hq
      rw [hfs, hstate]
      cases e with
      | error reason => cases hq
      | change p kind =>
        exact State.current_of_contributed hl hs houtside (State.classified ..) hq (hfile hsame)
    · rw [Move.contributed_of_not_classifies] at hq
      · cases hq
      · rintro p kind ⟨es, paths, hstep, -⟩
        exact hclassify hstep

theorem Run.current (hl : w.classifier.IsLayered l) (hrun : Run w h s ms t) (hs : s.fs.Sound)
    (hds : Below ds) (houtside : .name repositoryDir ∉ ds)
    (hfollows : w.FollowsUp (along l.root ds) ms)
    (hcurrent : s.state.memory.Current s.fs (along l.root ds) ∨
      ∃ m ∈ ms, m.Revisits w (along l.root ds)) :
    t.state.memory.Current t.fs (along l.root ds) := by
  induction hrun with
  | nil => exact hcurrent.resolve_right (by simp)
  | @cons s x t ms u hx hrest ih =>
    apply ih (sound_step hx hs) hfollows.tail
    rcases hcurrent with hcurrent | ⟨m, hm, hrevisits⟩
    · exact (current_step hl hx hs hds hcurrent).imp_right (hfollows [] _ ms rfl)
    · rcases List.mem_cons.mp hm with rfl | hm
      · exact .inl (current_of_revisits hl hx hs hds houtside hrevisits)
      · exact .inr ⟨m, hm, hrevisits⟩

end Session

theorem renews_start {w : Settings Cache} {l : Layers} {fs : FileSystem} {source : Source}
    {memory : Cache} {s : State Cache} (hl : w.classifier.IsLayered l) (hfs : fs.Sound)
    (hs : start w fs source memory = .ok s) : l.Renews fs memory s.memory := by
  simp only [start] at hs
  split at hs
  · cases hs
  next hdirs =>
    split at hs
    · cases hs
    · cases hs
      exact hl.renews_relevantDirs hfs hdirs

end ChunkWatch.Watch
