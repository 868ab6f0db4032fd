import ChunkWatch.Proofs.Watch.Handling
import ChunkWatch.Proofs.Watch.Links
import ChunkWatch.Proofs.Watch.Outside
import ChunkWatch.Proofs.Watch.Registration

namespace ChunkWatch

namespace Watch

variable {σ : Type}

structure Settings.Scans (w : Settings σ) (fs : FileSystem) (s : State σ) (p : Path)
    (kind : ChangeKind) (q : Path) : Prop where
  concerns : w.Concerns p kind q
  isDir : fs.isDir (w.classifier.root.join q)
  arrives : kind.isArrival
  watches : w.watchNewDirs
  passed : ((w.classifier.shouldIgnoreEntry fs (w.classifier.root.join q) true).run s.memory).1
    = false

def Settings.scanned? (w : Settings σ) (fs : FileSystem) (s : State σ) (p : Path)
    (kind : ChangeKind) : Option Path :=
  (w.concerned? p kind).filter fun q =>
    fs.isDir (w.classifier.root.join q) && kind.isArrival && w.watchNewDirs &&
      !((w.classifier.shouldIgnoreEntry fs (w.classifier.root.join q) true).run s.memory).1

def Settings.ownPath? (w : Settings σ) (p : Path) (kind : ChangeKind) (contributed : List Path) :
    Option Path :=
  (w.concerned? p kind).filter (· ∈ contributed)

def State.Recounts (s t : State σ) : Prop := ∃ dirs, t.stats = { s.stats with dirs }

section

variable {w : Settings σ} {fs : FileSystem} {s t u : State σ} {p q : Path} {kind : ChangeKind}
  {ps : List Path}

theorem Settings.scanned?_eq_some_iff :
    w.scanned? fs s p kind = some q ↔ w.Scans fs s p kind q := by
  simp only [scanned?, Option.filter_eq_some_iff, concerned?_eq_some_iff, Bool.and_eq_true,
    Bool.not_eq_true']
  constructor
  · rintro ⟨hq, ⟨⟨hdir, hkind⟩, hw⟩, hpassed⟩
    exact ⟨hq, hdir, hkind, hw, hpassed⟩
  · rintro ⟨hq, hdir, hkind, hw, hpassed⟩
    exact ⟨hq, ⟨⟨hdir, hkind⟩, hw⟩, hpassed⟩

theorem Settings.scanned?_eq_none (h : ∀ q, ¬w.Scans fs s p kind q) :
    w.scanned? fs s p kind = none :=
  Option.eq_none_iff_forall_ne_some.mpr fun q hq => h q (scanned?_eq_some_iff.mp hq)

theorem Settings.ownPath?_nil (w : Settings σ) (p : Path) (kind : ChangeKind) :
    w.ownPath? p kind [] = none := by
  rw [ownPath?, Option.filter_eq_none_iff]
  exact fun _ _ => by simp

namespace State

theorem Recounts.refl (s : State σ) : s.Recounts s := ⟨s.stats.dirs, rfl⟩

theorem Recounts.trans (h : s.Recounts t) (k : t.Recounts u) : s.Recounts u := by
  obtain ⟨m, hm⟩ := h
  obtain ⟨n, hn⟩ := k
  exact ⟨n, by rw [hn, hm]⟩

theorem recounts_register (fs : FileSystem) (s : State σ) (dir : Path) :
    s.Recounts (s.register fs dir) := by
  rw [register]
  split
  · exact .refl s
  · split
    · exact .refl s
    · exact ⟨_, rfl⟩

theorem recounts_registerAll (fs : FileSystem) (dirs : List Path) (s : State σ) :
    s.Recounts (dirs.foldl (register fs) s) := by
  induction dirs generalizing s with
  | nil => exact .refl s
  | cons dir dirs ih => exact (recounts_register fs s dir).trans (ih _)

theorem recounts_arrive (w : Settings σ) (fs : FileSystem) (q : Path) (s : State σ) :
    s.Recounts (s.arrive w fs q).2 := by
  have hscan : s.Recounts (s.scan w fs (w.classifier.root.join q)).2 := by
    rw [scan]
    split <;> exact ⟨_, rfl⟩
  rw [arrive]
  split
  · exact hscan
  · exact hscan.trans (recounts_registerAll ..)

theorem recounts_shutdown (s : State σ) : s.Recounts s.shutdown := by
  rw [shutdown]
  split <;> exact ⟨_, rfl⟩

theorem recounts_takeBatch (h : s.cancelled = true) : s.Recounts s.takeBatch.2 := by
  rw [takeBatch]
  split
  · exact .refl s
  · rw [if_pos h]
    exact ⟨_, rfl⟩

theorem stats_takeBatch (h : s.cancelled = false) {b : List Path} {bs : List (List Path)}
    (hwaiting : s.waiting = b :: bs) : s.takeBatch.2.stats =
      { s.stats with batches := s.stats.batches + 1, paths := s.stats.paths + b.length } := by
  rw [takeBatch, hwaiting]
  dsimp only
  rw [h, if_neg Bool.false_ne_true]
  rfl

theorem not_mem_arrive (hs : fs.Sound) (hq : q.bytes ≠ [])
    (hdir : fs.isDir (w.classifier.root.join q)) : q ∉ (s.arrive w fs q).1 := by
  intro hmem
  obtain ⟨-, e, he, hleaf, hself⟩ := mem_arrive_iff.mp hmem
  have hat := (isAt_of_scan hs hdir).1 e he
  have hslash := Path.getLast?_of_join_eq_self hq hat.bare hself.symm
  obtain ⟨f, hf, hkind⟩ := hat.entry
  rw [← Path.join_join _ hq hat.bare, ← hself] at hf
  rw [← Path.getLast?_join w.classifier.root hq] at hslash
  rw [FileSystem.isDir_of_slash hslash hf, hleaf] at hkind
  cases hkind

theorem stats_of_classified (hs : fs.Sound) (k : Classified w fs s p kind ps t) :
    ∃ dirs discarded, t.stats = { s.stats with dirs, discarded } ∧
      discarded + (w.ownPath? p kind ps).toList.length + (w.scanned? fs s p kind).toList.length =
        s.stats.discarded + 1 := by
  cases k with
  | unconcerned hno =>
    rw [Settings.ownPath?_nil, Settings.scanned?_eq_none fun q hq => hno q hq.concerns]
    exact ⟨_, _, rfl, rfl⟩
  | @forgotten q t hq hgone ht =>
    obtain ⟨-, rfl⟩ := forget?_eq_some_iff.mp ht
    have hno : ∀ r, ¬w.Scans fs s p kind r := fun r hr => by
      cases hq.unique hr.concerns
      exact hgone (FileSystem.exists_of_isDir hr.isDir)
    rw [Settings.ownPath?_nil, Settings.scanned?_eq_none hno]
    exact ⟨_, _, rfl, rfl⟩
  | @ignored q memory hq _ hasked =>
    have hno : ∀ r, ¬w.Scans fs s p kind r := fun r hr => by
      cases hq.unique hr.concerns
      have hpassed := hr.passed
      rw [hr.isDir] at hasked
      rw [hasked] at hpassed
      cases hpassed
    rw [Settings.ownPath?_nil, Settings.scanned?_eq_none hno]
    exact ⟨_, _, rfl, rfl⟩
  | @file q memory hq _ hfile _ =>
    have hno : ∀ r, ¬w.Scans fs s p kind r := fun r hr => by
      cases hq.unique hr.concerns
      rw [hr.isDir] at hfile
      cases hfile
    have hown : w.ownPath? p kind [q] = some q :=
      Option.filter_eq_some_iff.mpr ⟨Settings.concerned?_eq_some_iff.mpr hq, by simp⟩
    rw [hown, Settings.scanned?_eq_none hno]
    exact ⟨_, _, rfl, rfl⟩
  | @arrived q memory hq hdir hasked hkind hw =>
    have hscans : w.Scans fs s p kind q := ⟨hq, hdir, hkind, hw, by rw [hasked]⟩
    have hown : w.ownPath? p kind ({ s with memory }.arrive w fs q).1 = none := by
      rw [Settings.ownPath?, Option.filter_eq_none_iff]
      intro r hr
      cases hq.unique (Settings.concerned?_eq_some_iff.mp hr)
      simpa using not_mem_arrive hs hq.below hdir
    obtain ⟨dirs, hstats⟩ := recounts_arrive w fs q { s with memory }
    rw [hown, Settings.scanned?_eq_some_iff.mpr hscans]
    exact ⟨dirs, _, hstats, rfl⟩
  | @touched q memory hq _ _ hno =>
    have hno : ∀ r, ¬w.Scans fs s p kind r := fun r hr => hno ⟨hr.arrives, hr.watches⟩
    rw [Settings.ownPath?_nil, Settings.scanned?_eq_none hno]
    exact ⟨_, _, rfl, rfl⟩

end State

end

namespace Move

def failures (m : Move σ) : List String :=
  match m.step, m.before.intake with
  | .classify, .classifying (.error reason :: _) _ => [reason]
  | _, _ => []

def changes (m : Move σ) : List (Path × ChangeKind) := m.classified?.toList

def ownPaths (w : Settings σ) (m : Move σ) : List Path :=
  (m.classified?.bind fun (p, kind) => w.ownPath? p kind (m.contributed w)).toList

def scans (w : Settings σ) (m : Move σ) : List Path :=
  (m.classified?.bind fun (p, kind) => w.scanned? m.before.fs m.before.state p kind).toList

structure Counts (w : Settings σ) (m : Move σ) : Prop where
  errors : m.after.state.stats.errors = m.before.state.stats.errors + m.failures.length
  received : m.after.state.stats.received = m.before.state.stats.received + m.changes.length
  discarded : m.after.state.stats.discarded + (m.ownPaths w).length + (m.scans w).length =
    m.before.state.stats.discarded + m.changes.length
  batches : m.after.state.stats.batches = m.before.state.stats.batches + m.begun.length
  paths : m.after.state.stats.paths = m.before.state.stats.paths + m.begun.flatten.length

variable {w : Settings σ} {m : Move σ}

theorem counts_of_no_change (hchange : m.classified? = none) (hbegun : m.begun = [])
    (h : ∃ dirs, m.after.state.stats = { m.before.state.stats with
      dirs, errors := m.before.state.stats.errors + m.failures.length }) : m.Counts w := by
  obtain ⟨dirs, hstats⟩ := h
  have hown : m.ownPaths w = [] := by rw [ownPaths, hchange, Option.bind_none, Option.toList_none]
  have hscans : m.scans w = [] := by rw [scans, hchange, Option.bind_none, Option.toList_none]
  have hnone : m.changes = [] := by rw [changes, hchange, Option.toList_none]
  constructor <;> simp only [hstats, hown, hscans, hnone, hbegun] <;> rfl

theorem counts_of_recounts (h : m.before.state.Recounts m.after.state)
    (hfailures : m.failures = []) (hchange : m.classified? = none) (hbegun : m.begun = []) :
    m.Counts w := by
  obtain ⟨dirs, hstats⟩ := h
  exact counts_of_no_change hchange hbegun ⟨dirs, by rw [hstats, hfailures]; rfl⟩

theorem counts_of_classifies {p : Path} {kind : ChangeKind} (hs : m.before.fs.Sound)
    (hclass : m.Classifies p kind)
    (h : m.after.state = (m.before.state.classify w m.before.fs (.change p kind)).2)
    (hfailures : m.failures = []) (hbegun : m.begun = []) : m.Counts w := by
  have hsome := classified?_eq_some_iff.mpr hclass
  obtain ⟨dirs, discarded, hstats, hsum⟩ :=
    State.stats_of_classified hs (m.before.state.classified_change w m.before.fs p kind)
  have hown : (m.ownPaths w).length = (w.ownPath? p kind
      (m.before.state.classify w m.before.fs (.change p kind)).1).toList.length := by
    rw [ownPaths, hsome, Option.bind_some, contributed_of_classifies hclass]
  have hscans : (m.scans w).length =
      (w.scanned? m.before.fs m.before.state.receiving p kind).toList.length := by
    rw [scans, hsome, Option.bind_some]
    rfl
  have hchanges : m.changes = [(p, kind)] := by rw [changes, hsome, Option.toList_some]
  constructor
  case discarded =>
    rw [h, hstats, hown, hscans, hchanges]
    exact hsum
  all_goals
    simp only [h, hstats, hfailures, hchanges, hbegun]
    rfl

end Move

structure Counted (w : Settings σ) (ms : List (Move σ)) (c : Stats) : Prop where
  errors : c.errors = (ms.flatMap Move.failures).length
  received : c.received = (ms.flatMap Move.changes).length
  discarded : c.received =
    c.discarded + (ms.flatMap (Move.ownPaths w)).length + (ms.flatMap (Move.scans w)).length
  batches : c.batches = (ms.flatMap Move.begun).length
  paths : c.paths = (ms.flatMap Move.begun).flatten.length

namespace Session

variable {w : Settings σ} {h : Handler} {s t : Session σ} {x : Step} {ms : List (Move σ)}

theorem counts_step (hs : s.fs.Sound) (hx : s.step? w h x = some t) :
    (Move.mk s x t).Counts w := by
  cases takes_of_step? hx with
  | @classify e es paths hin =>
    cases e with
    | error reason =>
      refine Move.counts_of_no_change ?_ (Move.begun_of_same rfl) ?_
      · simp only [Move.classified?, hin]
      · simp only [Move.failures, hin]
        exact ⟨_, rfl⟩
    | change p kind =>
      refine Move.counts_of_classifies hs ⟨es, paths, rfl, hin⟩ rfl ?_ (Move.begun_of_same rfl)
      simp only [Move.failures, hin]
  | accept =>
    refine Move.counts_of_recounts ?_ rfl rfl (Move.begun_of_same rfl)
    rw [State.accept]
    split <;> exact .refl _
  | noticeCancel =>
    exact Move.counts_of_recounts (State.recounts_shutdown _) rfl rfl (Move.begun_of_same rfl)
  | fire =>
    refine Move.counts_of_recounts ?_ rfl rfl (Move.begun_of_same rfl)
    rw [State.fire]
    split <;> exact .refl _
  | handOver hnone hne =>
    cases hc : s.state.cancelled with
    | true =>
      refine Move.counts_of_recounts ?_ rfl rfl ((handles hx).not_begun hc)
      rw [handOver_state]
      exact State.recounts_takeBatch hc
    | false =>
      obtain ⟨b, bs, hwaiting⟩ := List.exists_cons_of_ne_nil hne
      have hstats := State.stats_takeBatch hc hwaiting
      rw [← handOver_state h] at hstats
      have hbegun : (Move.mk s .handOver (s.handOver h)).begun = [b] := by
        rw [Move.begun, hnone, inWork, handOver_of_open hc hwaiting]
        rfl
      constructor <;> simp only [hstats, hbegun, List.flatten_singleton] <;> rfl
  | finishHandler hr hdue =>
    refine Move.counts_of_recounts ?_ rfl rfl ?_
    · rw [finishHandler_state]
      exact .refl _
    · rw [Move.begun, hr]
      rfl
  | close =>
    exact Move.counts_of_recounts (State.recounts_shutdown _) rfl rfl (Move.begun_of_same rfl)
  | _ => exact Move.counts_of_recounts (.refl _) rfl rfl (Move.begun_of_same rfl)

theorem counted_step (hs : s.fs.Sound) (hx : s.step? w h x = some t)
    (hms : Counted w ms s.state.stats) : Counted w (ms ++ [⟨s, x, t⟩]) t.state.stats := by
  have hcounts := counts_step hs hx
  constructor <;> simp only [List.flatMap_append, List.flatMap_singleton, List.length_append,
    List.flatten_append]
  case errors => rw [hcounts.errors, hms.errors]
  case received => rw [hcounts.received, hms.received]
  case discarded =>
    have hbefore := hms.discarded
    have hreceived := hcounts.received
    have hdiscarded := hcounts.discarded
    dsimp only at hreceived hdiscarded
    omega
  case batches => rw [hcounts.batches, hms.batches]
  case paths => rw [hcounts.paths, hms.paths]

theorem Run.counted {before : List (Move σ)} (hrun : Run w h s ms t) (hs : s.fs.Sound)
    (hbefore : Counted w before s.state.stats) : Counted w (before ++ ms) t.state.stats := by
  induction hrun generalizing before with
  | nil => rwa [List.append_nil]
  | cons hx _ ih =>
    rw [List.append_cons]
    exact ih (sound_step hx hs) (counted_step hs hx hbefore)

theorem counted_of_start {fs : FileSystem} {source : Source} {memory : σ} {state : State σ}
    (hstart : start w fs source memory = .ok state) : Counted w [] state.stats := by
  simp only [start] at hstart
  split at hstart
  · cases hstart
  · split at hstart <;> cases hstart
    exact ⟨rfl, rfl, rfl, rfl, rfl⟩

/-- At any time of a run the counts are those of what happened up to then, and none of the batches
that are dropped once the session is cancelled is among them. -/
theorem counted_of_run {fs : FileSystem} {source : Source} {memory : σ} {state : State σ}
    (hfs : fs.Sound) (hstart : start w fs source memory = .ok state)
    (hrun : Run w h (ofState fs state) ms t) : Counted w ms t.state.stats ∧
      ∀ m ∈ ms, m.before.state.cancelled = true → m.begun = [] ∧
        m.after.state.stats.batches = m.before.state.stats.batches ∧
        m.after.state.stats.paths = m.before.state.stats.paths := by
  refine ⟨hrun.counted hfs (counted_of_start hstart), fun m hm hc => ?_⟩
  obtain ⟨before, after, rfl⟩ := List.append_of_mem hm
  obtain ⟨hbefore, hx, -⟩ := hrun.split
  have hbegun := (handles hx).not_begun hc
  have hcounts := counts_step (hbefore.sound hfs) hx
  have hbatches := hcounts.batches
  have hpaths := hcounts.paths
  rw [hbegun] at hbatches hpaths
  exact ⟨hbegun, hbatches, hpaths⟩

-- A run to see it by: the source fails once, and of four changes one is discarded, one tells of
-- the new and empty `/w/n`, and two of the same file; its second batch is dropped.
def countedSteps : List Step :=
  let a := Event.change (.ofString "/w/d/a") .write
  [.change (.ofString "/w") (.mkdir (.ofString "n")), .send (.error "lost"),
    .send (.change (.ofString "/w/d/a") .metadata), .send a,
    .send (.change (.ofString "/w/n") .create), .drain, .classify, .classify, .classify, .classify,
    .accept, .pass 5, .fire 1, .handOver, .finishHandler, .send a, .drain, .classify, .accept,
    .pass 5, .fire 2, .close, .handOver]

def countedRun : List (Move Unit) × Session Unit :=
  follow (.takingAll (.ofString "/w") 5) .channel countedSteps
    (ofState nestedFile (.watching [.ofString "/w", .ofString "/w/d"]))

theorem counted_with_dropped_batch :
    start (.takingAll (.ofString "/w") 5) nestedFile .ofDirectories () =
        .ok (.watching [.ofString "/w", .ofString "/w/d"]) ∧
      nestedFile.Sound ∧ countedRun.1.length = countedSteps.length ∧
      countedRun.1.flatMap Move.failures = ["lost"] ∧
      countedRun.1.flatMap (Move.ownPaths (.takingAll (.ofString "/w") 5)) =
        [.ofString "d/a", .ofString "d/a"] ∧
      countedRun.1.flatMap (Move.scans (.takingAll (.ofString "/w") 5)) = [.ofString "n"] ∧
      countedRun.1.flatMap Move.taken = [[.ofString "d/a"], [.ofString "d/a"]] ∧
      countedRun.1.flatMap Move.begun = [[.ofString "d/a"]] ∧
      countedRun.2.state.stats = ⟨4, 1, 1, 1, 1, 0⟩ ∧
      Counted (.takingAll (.ofString "/w") 5) countedRun.1 countedRun.2.state.stats := by
  have hstart : start (.takingAll (.ofString "/w") 5) nestedFile .ofDirectories () =
      .ok (.watching [.ofString "/w", .ofString "/w/d"]) := rfl
  refine ⟨hstart, sound_nestedFile, ?_, ?_, ?_, ?_, ?_, ?_, ?_,
    (counted_of_run sound_nestedFile hstart (run_follow ..)).1⟩
  all_goals decide +kernel

end Session

end Watch

end ChunkWatch
