import ChunkWatch.Proofs.FileSystem.Change
import ChunkWatch.Proofs.Watch.Delivery
import ChunkWatch.Proofs.Watch.Gone

namespace ChunkWatch.Watch

variable {σ : Type}

namespace Move

variable {w : Settings σ} {m : Move σ} {d p : Path} {kind : ChangeKind}

def Classifies (m : Move σ) (p : Path) (kind : ChangeKind) : Prop :=
  ∃ es paths, m.step = .classify ∧ m.before.intake = .classifying (.change p kind :: es) paths

def Forgets (w : Settings σ) (m : Move σ) (d : Path) : Prop :=
  ∃ p kind, m.Classifies p kind ∧ w.Forgets m.before.fs m.before.state p kind d

def Reports (w : Settings σ) (m : Move σ) (d : Path) : Prop :=
  ∃ p kind, m.Classifies p kind ∧ w.Reports m.before.fs m.before.state p kind d

theorem Classifies.unique {q : Path} {kind' : ChangeKind} (h : m.Classifies p kind)
    (k : m.Classifies q kind') : p = q ∧ kind = kind' := by
  obtain ⟨es, ps, -, hp⟩ := h
  obtain ⟨fs, qs, -, hq⟩ := k
  rw [hp] at hq
  cases hq
  exact ⟨rfl, rfl⟩

theorem forgets_iff (h : m.Classifies p kind) :
    m.Forgets w d ↔ w.Forgets m.before.fs m.before.state p kind d := by
  constructor
  · rintro ⟨q, kind', hq, hforgets⟩
    obtain ⟨rfl, rfl⟩ := h.unique hq
    exact hforgets
  · exact fun hforgets => ⟨p, kind, h, hforgets⟩

theorem reports_iff (h : m.Classifies p kind) :
    m.Reports w d ↔ w.Reports m.before.fs m.before.state p kind d := by
  constructor
  · rintro ⟨q, kind', hq, hreports⟩
    obtain ⟨rfl, rfl⟩ := h.unique hq
    exact hreports
  · exact fun hreports => ⟨p, kind, h, hreports⟩

theorem contributed_of_not_classifies (h : ∀ p kind, ¬m.Classifies p kind) :
    m.contributed w = [] := by
  rw [contributed]
  split
  next e es paths hstep hin =>
    cases e with
    | error reason => rfl
    | change p kind => exact absurd ⟨es, paths, hstep, hin⟩ (h p kind)
  · rfl

theorem contributed_of_classifies (h : m.Classifies p kind) :
    m.contributed w = (m.before.state.classify w m.before.fs (.change p kind)).1 := by
  obtain ⟨es, paths, hstep, hin⟩ := h
  simp only [contributed, hstep, hin]

theorem lists_contributed (hs : m.before.fs.Sound) (hgone : m.before.fs.Gone d) :
    w.Lists d (m.contributed w) ↔ m.Reports w d ∧ ¬d.isIn m.before.state.dirs := by
  by_cases hclass : ∃ p kind, m.Classifies p kind
  · obtain ⟨p, kind, hclass⟩ := hclass
    rw [reports_iff hclass, contributed_of_classifies hclass]
    exact State.lists_classify hs hgone
  · rw [contributed_of_not_classifies fun p kind hc => hclass ⟨p, kind, hc⟩]
    rw [iff_false_left (w.not_lists_nil d)]
    rintro ⟨⟨p, kind, hc, -⟩, -⟩
    exact hclass ⟨p, kind, hc⟩

structure Draws (m : Move σ) : Prop where
  pending : ∀ p ∈ m.after.state.pending, p ∈ m.accepted ∨ p ∈ m.before.state.pending
  taken : ∀ b ∈ m.taken, b = m.before.state.pending

theorem Draws.of_still (hpending : m.after.state.pending = m.before.state.pending)
    (hwaiting : m.after.state.waiting = m.before.state.waiting) : m.Draws := by
  constructor
  · exact fun p hp => .inr (hpending ▸ hp)
  · intro b hb
    simp [Move.taken, hwaiting] at hb

theorem Draws.of_shutdown {s : State σ} (hpending : s.pending = m.before.state.pending)
    (hwaiting : s.waiting = m.before.state.waiting) (h : m.after.state = s.shutdown) :
    m.Draws := by
  rw [State.shutdown] at h
  split at h
  · exact .of_still (h ▸ hpending) (h ▸ hwaiting)
  · constructor
    · intro p hp
      rw [h] at hp
      cases hp
    · intro b hb
      simp [Move.taken, h, State.countStats, hwaiting] at hb

end Move

namespace State

theorem registered_takeBatch (s : State σ) : Registered s s.takeBatch.2 := by
  rw [takeBatch]
  split
  · exact .refl s
  · dsimp only
    split <;> exact ⟨rfl, rfl, rfl⟩

end State

namespace Session

variable {w : Settings σ} {h : Handler} {s t : Session σ} {x : Step} {d : Path}

theorem shutdown_closed (s : State σ) : s.shutdown.closed = true := by
  rw [State.shutdown]
  split
  next hclosed => exact hclosed
  · rfl

theorem closed_step (hx : s.step? w h x = some t) (ht : t.state.closed = false) :
    s.state.closed = false := by
  cases takes_of_step? hx with
  | classify => exact (s.state.keeps_classify ..).closed.symm.trans ht
  | accept =>
    simp only [State.accept] at ht
    split at ht <;> exact ht
  | noticeCancel => simp [shutdown_closed] at ht
  | fire =>
    simp only [State.fire] at ht
    split at ht <;> exact ht
  | handOver =>
    obtain ⟨stats, heq⟩ := s.state.takeBatch_eq
    rwa [handOver_state, heq] at ht
  | finishHandler => rwa [finishHandler_state] at ht
  | close => simp [State.close, shutdown_closed] at ht
  | _ => exact ht

theorem state_of_classifies {p : Path} {kind : ChangeKind} (hx : s.step? w h x = some t)
    (hclass : (Move.mk s x t).Classifies p kind) :
    t.state = (s.state.classify w s.fs (.change p kind)).2 := by
  obtain ⟨es, paths, rfl, hin⟩ := hclass
  cases takes_of_step? hx with
  | classify hin' =>
    cases hin.symm.trans hin'
    rfl

theorem registered_step (hx : s.step? w h x = some t)
    (hno : ¬∃ p kind, (Move.mk s x t).Classifies p kind) (ht : t.state.closed = false) :
    State.Registered s.state t.state := by
  cases takes_of_step? hx with
  | @classify e es paths hin =>
    cases e with
    | error reason => exact ⟨rfl, rfl, rfl⟩
    | change p kind => exact absurd ⟨p, kind, es, paths, rfl, hin⟩ hno
  | accept =>
    rw [State.accept]
    split <;> exact ⟨rfl, rfl, rfl⟩
  | noticeCancel => simp [shutdown_closed] at ht
  | fire =>
    rw [State.fire]
    split <;> exact ⟨rfl, rfl, rfl⟩
  | handOver =>
    rw [handOver_state]
    exact s.state.registered_takeBatch
  | finishHandler =>
    rw [finishHandler_state]
    exact .refl _
  | close => simp [State.close, shutdown_closed] at ht
  | _ => exact ⟨rfl, rfl, rfl⟩

theorem isIn_dirs_step (hx : s.step? w h x = some t) (hs : s.fs.Sound) (hgone : s.fs.Gone d)
    (ht : t.state.closed = false) :
    d.isIn t.state.dirs ↔ d.isIn s.state.dirs ∧ ¬(Move.mk s x t).Forgets w d := by
  by_cases hclass : ∃ p kind, (Move.mk s x t).Classifies p kind
  · obtain ⟨p, kind, hclass⟩ := hclass
    rw [Move.forgets_iff hclass, state_of_classifies hx hclass]
    exact State.isIn_dirs_classify hs hgone
  · rw [(registered_step hx hclass ht).dirs, iff_self_and]
    rintro - ⟨p, kind, hc, -⟩
    exact hclass ⟨p, kind, hc⟩

theorem sound_step (hx : s.step? w h x = some t) (hs : s.fs.Sound) : t.fs.Sound := by
  cases takes_of_step? hx with
  | handOver => rwa [handOver_fs]
  | finishHandler => rwa [finishHandler_fs]
  | change => exact hs.apply _ _
  | _ => exact hs

variable {ms : List (Move σ)}

theorem Run.closed (hrun : Run w h s ms t) (ht : t.state.closed = false) :
    s.state.closed = false := by
  induction hrun with
  | nil => exact ht
  | cons hx _ ih => exact closed_step hx (ih ht)

theorem Run.sound (hrun : Run w h s ms t) (hs : s.fs.Sound) : t.fs.Sound :=
  Run.invariant (P := fun s => s.fs.Sound) hrun hs fun _ _ hb hx => sound_step hx hb

theorem Run.isIn_dirs (hrun : Run w h s ms t) (hs : s.fs.Sound)
    (hgone : ∀ m ∈ ms, m.before.fs.Gone d) (ht : t.state.closed = false) :
    d.isIn t.state.dirs ↔ d.isIn s.state.dirs ∧ ∀ m ∈ ms, ¬m.Forgets w d := by
  induction hrun with
  | nil => simp
  | @cons s x t ms u hx hrest ih =>
    simp only [List.forall_mem_cons] at hgone ⊢
    rw [ih (sound_step hx hs) hgone.2 ht, isIn_dirs_step hx hs hgone.1 (hrest.closed ht),
      and_assoc]

theorem draws_accept {paths : List Path} (hin : s.intake = .classifying [] paths) :
    (Move.mk s .accept { s with
      intake := .waiting, state := s.state.accept w s.now paths }).Draws := by
  cases hclosed : s.state.closed with
  | true =>
    have haccept : s.state.accept w s.now paths = s.state := by simp [State.accept, hclosed]
    exact .of_still (by rw [haccept]) (by rw [haccept])
  | false =>
    constructor
    · intro p hp
      dsimp only at hp
      rw [State.accept_pending hclosed] at hp
      simp only [Move.accepted, hclosed, Bool.false_eq_true, if_false, inHand, hin]
      exact Path.mem_of_mem_insertAll hp
    · intro b hb
      simp [Move.taken, State.accept_waiting] at hb

theorem draws (hx : s.step? w h x = some t) : (Move.mk s x t).Draws := by
  cases takes_of_step? hx with
  | classify =>
    have k := s.state.keeps_classify
    exact .of_still (k ..).pending (k ..).waiting
  | accept hin => exact draws_accept hin
  | noticeCancel => exact .of_shutdown (s := s.state) rfl rfl rfl
  | fire =>
    simp only [State.fire]
    split
    · exact .of_still rfl rfl
    · constructor
      · exact List.forall_mem_nil _
      · intro b hb
        simp only [Move.taken] at hb
        split at hb
        · simp at hb
        · simpa using hb
  | handOver =>
    obtain ⟨stats, heq⟩ := s.state.takeBatch_eq
    constructor
    · intro p hp
      dsimp only at hp
      rw [handOver_state, heq] at hp
      exact .inr hp
    · intro b hb
      rw [Move.taken, handOver_state, heq, List.drop_eq_nil_of_le (by simp)] at hb
      cases hb
  | finishHandler => exact .of_still (by rw [finishHandler_state]) (by rw [finishHandler_state])
  | close => exact .of_shutdown (s := { s.state with cancelled := true }) rfl rfl rfl
  | _ => exact .of_still rfl rfl

end Session

namespace Move

variable {w : Settings σ} {m : Move σ} {d : Path}

/-- After the step a directory is pending, or it is in a batch that the step takes. -/
def Puts (w : Settings σ) (m : Move σ) (d : Path) : Prop :=
  w.Lists d m.after.state.pending ∨ ∃ b ∈ m.taken, w.Lists d b

def Accepts (m : Move σ) : Prop := m.step = .accept ∧ m.before.state.closed = false

theorem Draws.puts (h : m.Draws) (k : m.Puts w d) :
    w.Lists d m.before.state.pending ∨ m.Accepts ∧ w.Lists d m.before.inHand := by
  rcases k with ⟨q, hq, hsame⟩ | ⟨b, hb, hlists⟩
  · rcases h.pending q hq with hq | hq
    · rw [accepted] at hq
      split at hq
      next hstep =>
        split at hq
        · cases hq
        next hopen => exact .inr ⟨⟨hstep, Bool.eq_false_iff.mpr hopen⟩, q, hq, hsame⟩
      · cases hq
    · exact .inl ⟨q, hq, hsame⟩
  · rw [h.taken b hb] at hlists
    exact .inl hlists

end Move

namespace Session

variable {w : Settings σ} {h : Handler} {s t : Session σ} {x : Step} {d : Path}
  {ms : List (Move σ)}

theorem lists_inHand_step (hx : s.step? w h x = some t) (k : w.Lists d t.inHand) :
    w.Lists d s.inHand ∨ w.Lists d ((Move.mk s x t).contributed w) := by
  rw [← Settings.lists_append, inHand_step hx]
  exact k.mono (List.subset_append_right _ _)

theorem Run.puts (hrun : Run w h s ms t) (k : ∃ m ∈ ms, m.Puts w d) :
    w.Lists d s.state.pending ∨ (w.Lists d s.inHand ∧ ∃ a ∈ ms, a.Accepts) ∨
      ∃ before r after, ms = before ++ r :: after ∧ w.Lists d (r.contributed w) ∧
        ∃ a ∈ after, a.Accepts := by
  induction hrun with
  | nil =>
    obtain ⟨m, hm, -⟩ := k
    cases hm
  | @cons s x t ms u hx hrest ih =>
    have first (hputs : (Move.mk s x t).Puts w d) : w.Lists d s.state.pending ∨
        (w.Lists d s.inHand ∧ ∃ a ∈ Move.mk s x t :: ms, a.Accepts) := by
      refine ((draws hx).puts hputs).imp_right fun ⟨haccepts, hin⟩ => ?_
      exact ⟨hin, _, List.mem_cons_self, haccepts⟩
    obtain ⟨m, hm, hputs⟩ := k
    rcases List.mem_cons.mp hm with rfl | hm
    · exact (first hputs).imp_right .inl
    · rcases ih ⟨m, hm, hputs⟩ with hpending | ⟨hin, a, ha, haccepts⟩ |
        ⟨before, r, after, rfl, hlists, haccepts⟩
      · exact (first (.inl hpending)).imp_right .inl
      · rcases lists_inHand_step hx hin with hin | hlists
        · exact .inr (.inl ⟨hin, a, List.mem_cons_of_mem _ ha, haccepts⟩)
        · exact .inr (.inr ⟨[], _, ms, rfl, hlists, a, ha, haccepts⟩)
      · exact .inr (.inr ⟨_ :: before, r, after, rfl, hlists, haccepts⟩)

theorem Run.closed_of_mem (hrun : Run w h s ms t) {a : Move σ} (ha : a ∈ ms)
    (k : a.before.state.closed = false) : s.state.closed = false := by
  obtain ⟨before, after, rfl⟩ := List.append_of_mem ha
  exact hrun.split.1.closed k

theorem lists_pending_of_accept (hx : s.step? w h .accept = some t) (hopen : s.state.closed = false)
    (hin : w.Lists d s.inHand) : w.Lists d t.state.pending := by
  cases takes_of_step? hx with
  | @accept paths hintake =>
    rw [inHand, hintake] at hin
    obtain ⟨q, hq, hsame⟩ := hin
    dsimp only
    rw [State.accept_pending hopen]
    have hisIn : q.isIn (Path.insertAll paths s.state.pending) :=
      Path.isIn_insertAll.mpr (.inl (Path.isIn_of_mem hq))
    obtain ⟨r, hr, hqr⟩ := Path.isIn_iff.mp hisIn
    refine ⟨r, hr, Path.same_trans (Path.same_iff.mpr ?_) hsame⟩
    exact Path.components_join_congr (Path.same_iff.mp (Path.same_symm hqr))

theorem Run.puts_of_inHand (hrun : Run w h s ms t) (hin : w.Lists d s.inHand)
    (k : ∃ a ∈ ms, a.Accepts) : ∃ m ∈ ms, m.Puts w d := by
  induction hrun with
  | nil =>
    obtain ⟨a, ha, -⟩ := k
    cases ha
  | @cons s x t ms u hx hrest ih =>
    obtain ⟨a, ha, haccepts⟩ := k
    by_cases haccept : x = .accept
    · subst haccept
      have hopen := (Run.cons hx hrest).closed_of_mem ha haccepts.2
      exact ⟨_, List.mem_cons_self, .inl (lists_pending_of_accept hx hopen hin)⟩
    · have hrest' : a ∈ ms := by
        refine (List.mem_cons.mp ha).resolve_left fun heq => haccept ?_
        rw [heq] at haccepts
        exact haccepts.1
      have hinHand : s.inHand ++ (Move.mk s x t).contributed w = t.inHand := by
        have hstep := inHand_step hx
        rwa [Move.handedIn_of_ne haccept, List.nil_append] at hstep
      have hin' : w.Lists d t.inHand := by
        rw [← hinHand]
        exact hin.mono (List.subset_append_left _ _)
      obtain ⟨m, hm, hputs⟩ := ih hin' ⟨a, hrest', haccepts⟩
      exact ⟨m, List.mem_cons_of_mem _ hm, hputs⟩

/-- A watched directory that is removed and stays gone is put into a batch if and only if it is
reported, and the report accepted, after an event that took it off the registered directories. -/
theorem puts_removed_iff (hrun : Run w h s ms t) (hs : s.fs.Sound) (hdir : d.isIn s.state.dirs)
    (hgone : ∀ m ∈ ms, m.before.fs.Gone d) (hpending : ¬w.Lists d s.state.pending)
    (hinHand : ¬w.Lists d s.inHand) :
    (∃ m ∈ ms, m.Puts w d) ↔
      ∃ before r after, ms = before ++ r :: after ∧ (∃ f ∈ before, f.Forgets w d) ∧
        r.Reports w d ∧ ∃ a ∈ after, a.Accepts := by
  -- At an open session, a report contributes the directory when it has been forgotten.
  have hcontributes {before : List (Move σ)} {r : Move σ} {after : List (Move σ)}
      (hms : ms = before ++ r :: after) (hopen : ∃ a ∈ after, a.Accepts) :
      w.Lists d (r.contributed w) ↔ r.Reports w d ∧ ∃ f ∈ before, f.Forgets w d := by
    subst hms
    obtain ⟨hbefore, hr, hafter⟩ := hrun.split
    obtain ⟨a, ha, -, hclosed⟩ := hopen
    have hr' : r.before.state.closed = false := closed_step hr (hafter.closed_of_mem ha hclosed)
    have hdirs := hbefore.isIn_dirs hs (fun m hm => hgone m (List.mem_append_left _ hm)) hr'
    have hlists := Move.lists_contributed (w := w) (hbefore.sound hs) (hgone r (by simp))
    rw [hlists, hdirs]
    simp [hdir]
  constructor
  · intro hputs
    rcases hrun.puts hputs with hold | ⟨hold, -⟩ | ⟨before, r, after, hms, hlists, haccepts⟩
    · exact absurd hold hpending
    · exact absurd hold hinHand
    · obtain ⟨hreports, hforgets⟩ := (hcontributes hms haccepts).mp hlists
      exact ⟨before, r, after, hms, hforgets, hreports, haccepts⟩
  · rintro ⟨before, r, after, hms, hforgets, hreports, haccepts⟩
    have hlists := (hcontributes hms haccepts).mpr ⟨hreports, hforgets⟩
    subst hms
    obtain ⟨-, hr, hafter⟩ := hrun.split
    obtain ⟨p, kind, ⟨es, paths, hclassify, -⟩, -⟩ := hreports
    have hstep := inHand_step hr
    rw [Move.handedIn_of_ne (by rw [hclassify]; exact nofun), List.nil_append] at hstep
    have hinHand : w.Lists d r.after.inHand := by
      rw [← hstep]
      exact hlists.mono (List.subset_append_right _ _)
    obtain ⟨m, hm, hputs⟩ := hafter.puts_of_inHand hinHand haccepts
    exact ⟨m, List.mem_append_right _ (List.mem_cons_of_mem r hm), hputs⟩

end Session

-- A run to see it by: the watched `/w/d` is removed with the file in it, and two events tell of
-- it.
def nestedFile : FileSystem :=
  ⟨.cons (.ofString "w")
    (.dir (.cons (.ofString "d") (.dir (.cons (.ofString "a") (.file []) .nil)) .nil)) .nil, []⟩

theorem sound_nestedFile : nestedFile.Sound := by
  constructor
  · refine ⟨by decide, nofun, ⟨by decide, nofun, ?_, trivial⟩, trivial⟩
    exact ⟨by decide, nofun, trivial, trivial⟩
  · exact nofun

namespace Session

def removedDirectory : Session Unit :=
  let s := ofState nestedFile (.watching [.ofString "/w", .ofString "/w/d"])
  { s with fs := nestedFile.apply (.ofString "/w") (.remove (.ofString "d")) }

def removedTwice : List Step :=
  let d := Event.change (.ofString "/w/d") .remove
  [.send d, .send d, .drain, .classify, .classify, .accept, .pass 5, .fire 1]

def removedTwiceRun : List (Move Unit) × Session Unit :=
  follow (.takingAll (.ofString "/w") 5) .channel removedTwice removedDirectory

theorem gone_in_removed_twice :
    ∀ m ∈ removedTwiceRun.1, m.before.fs.Gone (.ofString "/w/d") := by
  have hentry : ∀ m ∈ removedTwiceRun.1,
      (FileSystem.entry? m.before.fs false (.ofString "/w/d")).toBool = false := by
    decide +kernel
  exact fun m hm => FileSystem.gone_of_dotless (by decide) (by decide) (hentry m hm)

theorem sound_removedDirectory : removedDirectory.fs.Sound :=
  sound_nestedFile.apply (.ofString "/w") (.remove (.ofString "d"))

theorem taken_in_removed_twice : removedTwiceRun.1.flatMap Move.taken = [[.ofString "d"]] := by
  decide +kernel

theorem puts_in_removed_twice : ∃ m ∈ removedTwiceRun.1,
    m.Puts (.takingAll (.ofString "/w") 5) (.ofString "/w/d") := by
  obtain ⟨m, hm, hb⟩ := List.mem_flatMap.mp
    (taken_in_removed_twice ▸ List.mem_singleton_self _)
  exact ⟨m, hm, .inr ⟨_, hb, Settings.lists_singleton.mpr (by decide)⟩⟩

theorem puts_of_removed_twice :
    start (.takingAll (.ofString "/w") 5) nestedFile .ofDirectories () =
        .ok (.watching [.ofString "/w", .ofString "/w/d"]) ∧
      removedTwiceRun.1.length = removedTwice.length ∧ removedDirectory.fs.Sound ∧
      Path.isIn (.ofString "/w/d") removedDirectory.state.dirs ∧
      (∀ m ∈ removedTwiceRun.1, m.before.fs.Gone (.ofString "/w/d")) ∧
      removedTwiceRun.1.flatMap Move.taken = [[.ofString "d"]] ∧
      ∃ before r after, removedTwiceRun.1 = before ++ r :: after ∧
        (∃ f ∈ before, f.Forgets (.takingAll (.ofString "/w") 5) (.ofString "/w/d")) ∧
        r.Reports (.takingAll (.ofString "/w") 5) (.ofString "/w/d") ∧
        ∃ a ∈ after, a.Accepts := by
  have hdir : Path.isIn (.ofString "/w/d") removedDirectory.state.dirs := by decide +kernel
  refine ⟨rfl, by decide +kernel, sound_removedDirectory, hdir, gone_in_removed_twice,
    taken_in_removed_twice, ?_⟩
  apply (puts_removed_iff (run_follow ..) sound_removedDirectory hdir gone_in_removed_twice ?_
    ?_).mp puts_in_removed_twice
  · exact Settings.not_lists_nil _ _
  · exact Settings.not_lists_nil _ _

theorem not_never_puts_removed : ¬∀ (w : Settings Unit) (h : Handler) (s t : Session Unit)
    (ms : List (Move Unit)) (d : Path), Run w h s ms t → s.fs.Sound → d.isIn s.state.dirs →
    s.state.pending = [] → s.queue = [] → s.intake = .waiting →
    (∀ m ∈ ms, m.before.fs.Gone d) →
    (∀ m ∈ ms, ∀ e, m.step = .send e → e = .change d .remove) → ¬∃ m ∈ ms, m.Puts w d := by
  intro h
  have hsteps : removedTwiceRun.1.map Move.step = removedTwice := rfl
  refine h _ _ _ _ _ _ (run_follow ..) sound_removedDirectory ?_ rfl rfl rfl
    gone_in_removed_twice ?_ puts_in_removed_twice
  · decide +kernel
  · intro m hm e he
    have hmem : Step.send e ∈ removedTwice := by
      rw [← hsteps, ← he]
      exact List.mem_map_of_mem hm
    simpa [removedTwice] using hmem

end Session

end ChunkWatch.Watch
