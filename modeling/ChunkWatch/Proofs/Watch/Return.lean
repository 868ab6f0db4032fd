import ChunkWatch.Proofs.Watch.Closing

namespace ChunkWatch.Watch

variable {σ : Type}

/-- From `s` to `t` the source is called for some new directories: not for `d` if it was registered,
which it stays then, but for `d` if it becomes so. -/
structure State.Asks (d : Path) (new : List Path) (s t : State σ) : Prop where
  calls : t.source.calls = s.source.calls ++ new
  kept : d.isIn s.dirs → d.isIn t.dirs ∧ ¬d.isIn new
  fresh : d.isIn t.dirs → d.isIn s.dirs ∨ d.isIn new

def Settings.Announces (w : Settings σ) (fs : FileSystem) (s : State σ) (p : Path)
    (kind : ChangeKind) (d : Path) : Prop :=
  ∃ q, w.Concerns p kind q ∧ (w.classifier.root.join q).same d ∧ kind.isArrival ∧
    ((w.classifier.shouldIgnoreEntry fs (w.classifier.root.join q) true).run s.memory).1 = false

structure State.Attends (w : Settings σ) (fs : FileSystem) (p : Path) (kind : ChangeKind) (d : Path)
    (new : List Path) (s t : State σ) : Prop extends State.Asks d new s t where
  arrived : w.Announces fs s p kind d → w.watchNewDirs → s.cancelled = false →
    d.isIn s.dirs ∨ d.isIn new

theorem Settings.Concerns.announces_iff {w : Settings σ} {fs : FileSystem} {s : State σ}
    {d p q : Path} {kind : ChangeKind} (hq : w.Concerns p kind q) : w.Announces fs s p kind d ↔
      (w.classifier.root.join q).same d ∧ kind.isArrival ∧
        ((w.classifier.shouldIgnoreEntry fs (w.classifier.root.join q) true).run s.memory).1
          = false := by
  constructor
  · rintro ⟨r, hr, hannounces⟩
    rwa [hq.unique hr]
  · exact fun hannounces => ⟨q, hq, hannounces⟩

namespace State

variable {w : Settings σ} {fs : FileSystem} {s t u : State σ} {d p : Path} {kind : ChangeKind}
  {ps new : List Path}

theorem Asks.of_same (hcalls : t.source.calls = s.source.calls)
    (hdirs : d.isIn t.dirs ↔ d.isIn s.dirs) : Asks d [] s t where
  calls := by rw [hcalls, List.append_nil]
  kept h := ⟨hdirs.mpr h, Path.not_isIn_nil d⟩
  fresh h := .inl (hdirs.mp h)

theorem Asks.of_registered (h : Registered s t) : Asks d [] s t :=
  .of_same (by rw [h.source]) (by rw [h.dirs])

theorem Asks.trans {later : List Path} (h : Asks d new s t) (k : Asks d later t u) :
    Asks d (new ++ later) s u where
  calls := by rw [k.calls, h.calls, List.append_assoc]
  kept hs := by
    obtain ⟨ht, hnew⟩ := h.kept hs
    obtain ⟨hu, hlater⟩ := k.kept ht
    exact ⟨hu, by simp [hnew, hlater]⟩
  fresh hu := by
    rw [Path.isIn_append]
    rcases k.fresh hu with ht | hlater
    · exact (h.fresh ht).imp_right .inl
    · exact .inr (.inr hlater)

def asked (dir : Path) (s : State σ) : List Path := if dir.isIn s.dirs then [] else [dir]

theorem isIn_or_isIn_asked {dir : Path} (h : d.same dir) :
    d.isIn s.dirs ∨ d.isIn (s.asked dir) := by
  rw [asked]
  split
  next hin => exact .inl (Path.isIn_of_same h hin)
  · exact .inr (by simp [h])

theorem asks_register (d : Path) (fs : FileSystem) (dir : Path) (s : State σ) :
    Asks d (s.asked dir) s (s.register fs dir) := by
  rw [asked, register]
  split
  · exact .of_same rfl Iff.rfl
  next hnew =>
    have hkept (h : d.isIn s.dirs) : ¬d.isIn [dir] := by
      rw [Path.isIn_cons, or_iff_left (Path.not_isIn_nil d)]
      exact fun hsame => hnew (Path.isIn_of_same (Path.same_symm hsame) h)
    have hcalls : (s.source.watch fs dir).1.calls = s.source.calls ++ [dir] := by
      rw [Source.watch]
      dsimp only
      split <;> rfl
    split
    next hw =>
      rw [hw] at hcalls
      exact ⟨hcalls, fun h => ⟨h, hkept h⟩, .inl⟩
    next hw =>
      rw [hw] at hcalls
      refine ⟨hcalls, fun h => ⟨?_, hkept h⟩, fun h => ?_⟩
      · simp [countStats, h]
      · simpa [countStats, or_comm] using h

theorem asks_registerAll (d : Path) (fs : FileSystem) (dirs : List Path) (s : State σ) :
    ∃ new, Asks d new s (dirs.foldl (register fs) s) ∧
      (d.isIn dirs → d.isIn s.dirs ∨ d.isIn new) := by
  induction dirs generalizing s with
  | nil => exact ⟨[], .of_same rfl Iff.rfl, fun h => absurd h (Path.not_isIn_nil d)⟩
  | cons dir dirs ih =>
    have hfirst := asks_register d fs dir s
    obtain ⟨later, hlater, hin⟩ := ih (s.register fs dir)
    refine ⟨_, hfirst.trans hlater, fun h => ?_⟩
    rw [Path.isIn_append]
    rcases Path.isIn_cons.mp h with hsame | h
    · exact (isIn_or_isIn_asked hsame).imp_right .inl
    · rcases hin h with hregistered | hlater
      · exact (hfirst.fresh hregistered).imp_right .inl
      · exact .inr (.inr hlater)

theorem arrive_of_open (h : s.cancelled = false) (w : Settings σ) (fs : FileSystem) (q : Path) :
    ∃ found, (s.arrive w fs q).2 = (w.classifier.root.join q :: found).foldl (register fs)
      (s.scan w fs (w.classifier.root.join q)).2 := by
  have hopen := (keeps_scan w fs (w.classifier.root.join q) s).cancelled.trans h
  rw [arrive]
  dsimp only
  rw [hopen, if_neg Bool.false_ne_true]
  exact ⟨_, rfl⟩

theorem asks_arrive (w : Settings σ) (fs : FileSystem) (q : Path) (s : State σ) :
    ∃ new, Asks d new s (s.arrive w fs q).2 ∧
      (s.cancelled = false → d.same (w.classifier.root.join q) → d.isIn s.dirs ∨ d.isIn new) := by
  have hscan := registered_scan w fs (w.classifier.root.join q) s
  cases hc : s.cancelled with
  | true => exact ⟨[], .of_registered (registered_arrive hc w fs q), nofun⟩
  | false =>
    obtain ⟨found, harrive⟩ := arrive_of_open hc w fs q
    obtain ⟨new, hnew, hin⟩ := asks_registerAll d fs (w.classifier.root.join q :: found)
      (s.scan w fs (w.classifier.root.join q)).2
    rw [hscan.dirs] at hin
    rw [harrive]
    exact ⟨_, (Asks.of_registered hscan).trans hnew, fun _ hsame => hin (by simp [hsame])⟩

theorem attends_of_classified (hdir : fs.isDir d) (k : Classified w fs s p kind ps t) :
    ∃ new, Attends w fs p kind d new s t := by
  have still {t : State σ} (r : Registered s t)
      (hno : w.Announces fs s p kind d → ¬w.watchNewDirs) :
      ∃ new, Attends w fs p kind d new s t :=
    ⟨[], .of_registered r, fun hannounces hw => absurd hw (hno hannounces)⟩
  cases k with
  | unconcerned hno => exact still ⟨rfl, rfl, rfl⟩ fun ⟨q, hq, _⟩ => absurd hq (hno q)
  | @forgotten q t hq hgone ht =>
    obtain ⟨-, rfl⟩ := forget?_eq_some_iff.mp ht
    have habove : ¬d.startsWith (w.classifier.root.join q) := by
      intro hstarts
      have hne := Path.join_ne_nil w.classifier.root hq.below
      exact hgone (FileSystem.exists_of_isDir (FileSystem.isDir_of_startsWith hdir hstarts hne))
    refine ⟨[], .of_same rfl ?_, fun hannounces => ?_⟩
    · exact isIn_filter_startsWith.trans (and_iff_left habove)
    · obtain ⟨hsame, -⟩ := hq.announces_iff.mp hannounces
      exact absurd (Path.startsWith_of_same (Path.same_symm hsame)) habove
  | ignored hq _ hignored =>
    refine still ⟨rfl, rfl, rfl⟩ fun hannounces => ?_
    obtain ⟨hsame, -, hkeeps⟩ := hq.announces_iff.mp hannounces
    rw [FileSystem.isDir_congr hsame, hdir] at hignored
    rw [hignored] at hkeeps
    cases hkeeps
  | file hq _ hfile =>
    refine still ⟨rfl, rfl, rfl⟩ fun hannounces => ?_
    obtain ⟨hsame, -⟩ := hq.announces_iff.mp hannounces
    rw [FileSystem.isDir_congr hsame, hdir] at hfile
    cases hfile
  | @arrived q memory hq =>
    have hasked : Asks d [] s { s with memory } := .of_same rfl Iff.rfl
    obtain ⟨new, hnew, harrived⟩ := asks_arrive w fs q { s with memory } (d := d)
    refine ⟨_, hasked.trans hnew, fun hannounces _ hopen => ?_⟩
    exact harrived hopen (Path.same_symm (hq.announces_iff.mp hannounces).1)
  | touched hq _ _ hno =>
    refine still ⟨rfl, rfl, rfl⟩ fun hannounces hw => ?_
    exact hno ⟨(hq.announces_iff.mp hannounces).2.1, hw⟩

theorem attends_change (hdir : fs.isDir d) :
    ∃ new, Attends w fs p kind d new s (s.classify w fs (.change p kind)).2 := by
  obtain ⟨new, hnew⟩ := attends_of_classified hdir (classified_change w fs s p kind)
  exact ⟨new, ⟨hnew.calls, hnew.kept, hnew.fresh⟩, hnew.arrived⟩

theorem asks_classify (hdir : fs.isDir d) (e : Event) :
    ∃ new, Asks d new s (s.classify w fs e).2 := by
  cases e with
  | error reason => exact ⟨[], .of_same rfl Iff.rfl⟩
  | change p kind =>
    obtain ⟨new, hnew⟩ := attends_change hdir
    exact ⟨new, hnew.toAsks⟩

theorem source_of_classified (k : Classified w fs s p kind ps t) (h : s.cancelled = true) :
    t.source = s.source := by
  cases k with
  | forgotten _ _ ht =>
    obtain ⟨-, rfl⟩ := forget?_eq_some_iff.mp ht
    rfl
  | @arrived q memory => exact (registered_arrive (s := { s with memory }) h w fs q).source
  | _ => rfl

theorem source_classify (h : s.cancelled = true) (w : Settings σ) (fs : FileSystem) (e : Event) :
    (s.classify w fs e).2.source = s.source := by
  cases e with
  | error reason => rfl
  | change p kind =>
    have hsource := source_of_classified (classified_change w fs s p kind) h
    exact hsource

end State

namespace Move

def calls (m : Move σ) : List Path :=
  m.after.state.source.calls.drop m.before.state.source.calls.length

def Arrives (w : Settings σ) (m : Move σ) (d : Path) : Prop :=
  ∃ p kind, m.Classifies p kind ∧ w.Announces m.before.fs m.before.state p kind d

variable {w : Settings σ} {m : Move σ} {d : Path} {new : List Path}

theorem calls_of_asks (h : State.Asks d new m.before.state m.after.state) : m.calls = new := by
  rw [calls, h.calls, List.drop_left]

structure Silent (m : Move σ) : Prop where
  calls : m.after.state.source.calls = m.before.state.source.calls
  dirs : m.after.state.dirs = m.before.state.dirs ∨
    m.after.state.dirs = [] ∧ m.after.state.cancelled = true

theorem Silent.of_same (hcalls : m.after.state.source.calls = m.before.state.source.calls)
    (hdirs : m.after.state.dirs = m.before.state.dirs) : m.Silent := ⟨hcalls, .inl hdirs⟩

theorem Silent.of_shutdown {s : State σ} (hsource : s.source = m.before.state.source)
    (hdirs : s.dirs = m.before.state.dirs) (hcancelled : s.cancelled = true)
    (h : m.after.state = s.shutdown) : m.Silent := by
  have hcalls : s.source.calls = m.before.state.source.calls := congrArg Source.calls hsource
  rw [State.shutdown] at h
  split at h
  · exact .of_same (h ▸ hcalls) (h ▸ hdirs)
  · exact ⟨h ▸ hcalls, .inr (h ▸ ⟨rfl, hcancelled⟩)⟩

theorem calls_eq_nil (h : m.after.state.source.calls = m.before.state.source.calls) :
    m.calls = [] := by
  rw [calls, h, List.drop_length]

end Move

namespace Session

variable {w : Settings σ} {h : Handler} {s t : Session σ} {x : Step} {d : Path}
  {ms : List (Move σ)}

theorem silent (hx : s.step? w h x = some t) (hne : x ≠ .classify) :
    (Move.mk s x t).Silent := by
  cases takes_of_step? hx with
  | classify => exact absurd rfl hne
  | accept =>
    rw [State.accept]
    split <;> exact .of_same rfl rfl
  | noticeCancel _ hc => exact .of_shutdown (s := s.state) rfl rfl hc rfl
  | fire =>
    rw [State.fire]
    split <;> exact .of_same rfl rfl
  | handOver =>
    obtain ⟨stats, heq⟩ := s.state.takeBatch_eq
    refine .of_same ?_ ?_ <;> rw [handOver_state, heq]
  | finishHandler => exact .of_same (by rw [finishHandler_state]) (by rw [finishHandler_state])
  | close => exact .of_shutdown (s := { s.state with cancelled := true }) rfl rfl rfl rfl
  | _ => exact .of_same rfl rfl

theorem calls_of_cancelled (hx : s.step? w h x = some t) (hc : s.state.cancelled = true) :
    t.state.source.calls = s.state.source.calls := by
  by_cases hclassify : x = .classify
  · subst hclassify
    cases takes_of_step? hx with
    | classify => rw [State.source_classify hc]
  · exact (silent hx hclassify).calls

theorem asks_step (hx : s.step? w h x = some t) (hclassify : x = .classify) (hdir : s.fs.isDir d) :
    ∃ new, State.Asks d new s.state t.state := by
  subst hclassify
  cases takes_of_step? hx with
  | classify => exact State.asks_classify hdir _

theorem kept_step (hx : s.step? w h x = some t) (hdir : s.fs.isDir d)
    (hkept : d.isIn s.state.dirs ∨ s.state.cancelled = true) :
    (d.isIn t.state.dirs ∨ t.state.cancelled = true) ∧ ¬d.isIn (Move.mk s x t).calls := by
  rcases hkept with hin | hc
  · by_cases hclassify : x = .classify
    · obtain ⟨new, hnew⟩ := asks_step hx hclassify hdir
      obtain ⟨hin', hno⟩ := hnew.kept hin
      rw [Move.calls_of_asks hnew]
      exact ⟨.inl hin', hno⟩
    · have hsilent := silent hx hclassify
      rw [Move.calls_eq_nil hsilent.calls]
      refine ⟨?_, Path.not_isIn_nil d⟩
      rcases hsilent.dirs with hdirs | ⟨-, hc⟩
      · exact .inl (by rw [hdirs]; exact hin)
      · exact .inr hc
  · rw [Move.calls_eq_nil (calls_of_cancelled hx hc)]
    exact ⟨.inr (cancelled_step hx hc), Path.not_isIn_nil d⟩

theorem fresh_step (hx : s.step? w h x = some t) (hdir : s.fs.isDir d)
    (hin : d.isIn t.state.dirs) : d.isIn s.state.dirs ∨ d.isIn (Move.mk s x t).calls := by
  by_cases hclassify : x = .classify
  · obtain ⟨new, hnew⟩ := asks_step hx hclassify hdir
    rw [Move.calls_of_asks hnew]
    exact hnew.fresh hin
  · rcases (silent hx hclassify).dirs with hdirs | ⟨hnil, -⟩
    · exact .inl (by rw [← hdirs]; exact hin)
    · rw [hnil] at hin
      exact absurd hin (Path.not_isIn_nil d)

theorem called_of_arrives (hx : s.step? w h x = some t) (hdir : s.fs.isDir d) (hw : w.watchNewDirs)
    (harrives : (Move.mk s x t).Arrives w d) (hopen : s.state.cancelled = false) :
    d.isIn s.state.dirs ∨ d.isIn (Move.mk s x t).calls := by
  obtain ⟨p, kind, ⟨es, paths, rfl, hin⟩, hannounces⟩ := harrives
  cases takes_of_step? hx with
  | classify hin' =>
    rw [hin] at hin'
    cases hin'
    obtain ⟨new, hnew⟩ := State.attends_change hdir
    rw [Move.calls_of_asks hnew.toAsks]
    exact hnew.arrived hannounces hw hopen

theorem Run.kept (hrun : Run w h s ms t) (hdir : ∀ m ∈ ms, m.before.fs.isDir d)
    (hkept : d.isIn s.state.dirs ∨ s.state.cancelled = true) : ¬d.isIn (ms.flatMap Move.calls) := by
  induction hrun with
  | nil => exact Path.not_isIn_nil d
  | cons hx _ ih =>
    obtain ⟨hfirst, hrest⟩ := List.forall_mem_cons.mp hdir
    obtain ⟨hkept', hno⟩ := kept_step hx hfirst hkept
    rw [List.flatMap_cons, Path.isIn_append, not_or]
    exact ⟨hno, ih hrest hkept'⟩

theorem Run.fresh (hrun : Run w h s ms t) (hdir : ∀ m ∈ ms, m.before.fs.isDir d)
    (hin : d.isIn t.state.dirs) : d.isIn s.state.dirs ∨ d.isIn (ms.flatMap Move.calls) := by
  induction hrun with
  | nil => exact .inl hin
  | cons hx _ ih =>
    obtain ⟨hfirst, hrest⟩ := List.forall_mem_cons.mp hdir
    rw [List.flatMap_cons, Path.isIn_append]
    rcases ih hrest hin with hin | hlater
    · exact (fresh_step hx hfirst hin).imp_right .inl
    · exact .inr (.inr hlater)

/-- When a watched directory is removed and made again, and its arrival is classified at an open
session, the source is called for it anew if and only if an event that was classified while it was
away took it off the registered directories. -/
theorem rewatched_iff {u : Session σ} {away back : List (Move σ)} (haway : Run w h s away u)
    (hback : Run w h u back t) (hs : s.fs.Sound) (hin : d.isIn s.state.dirs)
    (hgone : ∀ m ∈ away, m.before.fs.Gone d) (hdir : ∀ m ∈ back, m.before.fs.isDir d)
    (hw : w.watchNewDirs) (harrives : ∃ m ∈ back, m.Arrives w d ∧
      m.before.state.cancelled = false ∧ m.before.state.closed = false) :
    d.isIn (back.flatMap Move.calls) ↔ ∃ m ∈ away, m.Forgets w d := by
  obtain ⟨a, ha, harrives, hopen, hclosed⟩ := harrives
  have hdirs := haway.isIn_dirs hs hgone (hback.closed_of_mem ha hclosed)
  constructor
  · intro hcalls
    by_contra hforgets
    push Not at hforgets
    exact hback.kept hdir (.inl (hdirs.mpr ⟨hin, hforgets⟩)) hcalls
  · rintro ⟨f, hf, hforgets⟩
    have hnot : ¬d.isIn u.state.dirs := fun hu => (hdirs.mp hu).2 f hf hforgets
    obtain ⟨before, after, rfl⟩ := List.append_of_mem ha
    obtain ⟨hbefore, hstep, -⟩ := hback.split
    rw [List.forall_mem_append, List.forall_mem_cons] at hdir
    have hcalled := called_of_arrives hstep hdir.2.1 hw harrives hopen
    rw [List.flatMap_append, List.flatMap_cons, Path.isIn_append, Path.isIn_append]
    rcases hcalled with hin' | hcalled
    · exact .inl ((hbefore.fresh hdir.1 hin').resolve_left hnot)
    · exact .inr (.inl hcalled)

-- Two runs to see it by.  The watched `/w/d` is removed and made again, and two events tell of
-- it. The first of them is classified while the directory is away, or when it is back.
def makeAgain : Step := .change (.ofString "/w") (.mkdir (.ofString "d"))

def removeEvent : Event := .change (.ofString "/w/d") .remove

def createEvent : Event := .change (.ofString "/w/d") .create

def noticedRun : List (Move Unit) × Session Unit :=
  follow (.takingAll (.ofString "/w") 5) .channel [.send removeEvent, .drain, .classify, makeAgain]
    removedDirectory

def afterNoticedRun : List (Move Unit) × Session Unit :=
  follow (.takingAll (.ofString "/w") 5) .channel [.accept, .send createEvent, .drain, .classify]
    noticedRun.2

theorem gone_in_noticed : ∀ m ∈ noticedRun.1, m.before.fs.Gone (.ofString "/w/d") := by
  have hentry : ∀ m ∈ noticedRun.1,
      (FileSystem.entry? m.before.fs false (.ofString "/w/d")).toBool = false := by
    decide +kernel
  exact fun m hm => FileSystem.gone_of_dotless (by decide) (by decide) (hentry m hm)

theorem arrives_in_noticed : ∃ m ∈ afterNoticedRun.1,
    m.Arrives (.takingAll (.ofString "/w") 5) (.ofString "/w/d") ∧
      m.before.state.cancelled = false ∧ m.before.state.closed = false := by
  refine ⟨_, List.mem_of_getLast? rfl, ?_, by decide +kernel, by decide +kernel⟩
  exact ⟨_, .create, ⟨_, _, rfl, rfl⟩, .ofString "d", ⟨rfl, rfl, by decide⟩, by decide, rfl, rfl⟩

theorem rewatched_after_noticed :
    removedDirectory.fs.Sound ∧ Path.isIn (.ofString "/w/d") removedDirectory.state.dirs ∧
      (∀ m ∈ noticedRun.1, m.before.fs.Gone (.ofString "/w/d")) ∧
      (∀ m ∈ afterNoticedRun.1, m.before.fs.isDir (.ofString "/w/d")) ∧
      afterNoticedRun.1.flatMap Move.calls = [.ofString "/w/d"] ∧
      ∃ m ∈ noticedRun.1, m.Forgets (.takingAll (.ofString "/w") 5) (.ofString "/w/d") := by
  have haway : Run (.takingAll (.ofString "/w") 5) .channel removedDirectory noticedRun.1
      noticedRun.2 := run_follow ..
  have hback : Run (.takingAll (.ofString "/w") 5) .channel noticedRun.2 afterNoticedRun.1
      afterNoticedRun.2 := run_follow ..
  have hin : Path.isIn (.ofString "/w/d") removedDirectory.state.dirs := by decide +kernel
  have hdir : ∀ m ∈ afterNoticedRun.1, m.before.fs.isDir (.ofString "/w/d") := by
    decide +kernel
  have hcalls : afterNoticedRun.1.flatMap Move.calls = [.ofString "/w/d"] := by
    decide +kernel
  refine ⟨sound_removedDirectory, hin, gone_in_noticed, hdir, hcalls, ?_⟩
  apply (rewatched_iff haway hback sound_removedDirectory hin gone_in_noticed hdir rfl
    arrives_in_noticed).mp
  rw [hcalls]
  decide

def unnoticedRun : List (Move Unit) × Session Unit :=
  follow (.takingAll (.ofString "/w") 5) .channel [makeAgain] removedDirectory

def afterUnnoticedRun : List (Move Unit) × Session Unit :=
  follow (.takingAll (.ofString "/w") 5) .channel
    [.send removeEvent, .send createEvent, .drain, .classify, .classify] unnoticedRun.2

theorem classifies_in_unnoticed : ∃ before r a, afterUnnoticedRun.1 = before ++ [r, a] ∧
    r.Classifies (.ofString "/w/d") .remove ∧
      a.Arrives (.takingAll (.ofString "/w") 5) (.ofString "/w/d") := by
  refine ⟨afterUnnoticedRun.1.take 3, _, _, rfl, ⟨_, _, rfl, rfl⟩, ?_⟩
  exact ⟨_, .create, ⟨_, _, rfl, rfl⟩, .ofString "d", ⟨rfl, rfl, by decide⟩, by decide, rfl, rfl⟩

theorem not_always_rewatched : ¬∀ (w : Settings Unit) (h : Handler) (s u t : Session Unit)
    (away back : List (Move Unit)) (d : Path), Run w h s away u → Run w h u back t →
    s.fs.Sound → d.isIn s.state.dirs → w.watchNewDirs →
    (∀ m ∈ away, m.before.fs.Gone d ∧ m.step ≠ .classify) →
    (∀ m ∈ back, m.before.fs.isDir d) →
    (∃ before r a, back = before ++ [r, a] ∧ r.Classifies d .remove ∧ a.Arrives w d) →
    t.state.cancelled = false → t.state.closed = false → d.isIn (back.flatMap Move.calls) := by
  intro h
  have hcalled : Path.isIn (.ofString "/w/d") (afterUnnoticedRun.1.flatMap Move.calls) := by
    refine h _ _ removedDirectory unnoticedRun.2 afterUnnoticedRun.2 unnoticedRun.1 _ _
      (run_follow ..) (run_follow ..) sound_removedDirectory (by decide +kernel) rfl ?_
      (by decide +kernel) classifies_in_unnoticed (by decide +kernel) (by decide +kernel)
    have hentry : ∀ m ∈ unnoticedRun.1,
        (FileSystem.entry? m.before.fs false (.ofString "/w/d")).toBool = false := by
      decide +kernel
    have hsteps : unnoticedRun.1.map Move.step = [makeAgain] := rfl
    intro m hm
    have hstep : m.step ∈ [makeAgain] := hsteps ▸ List.mem_map_of_mem hm
    refine ⟨FileSystem.gone_of_dotless (by decide) (by decide) (hentry m hm), ?_⟩
    rw [List.mem_singleton.mp hstep]
    exact nofun
  revert hcalled
  decide +kernel

end Session

end ChunkWatch.Watch
