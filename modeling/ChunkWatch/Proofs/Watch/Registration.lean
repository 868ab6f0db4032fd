import ChunkWatch.Proofs.Watch.Arrival
import ChunkWatch.Proofs.Watch.Closing
import ChunkWatch.Proofs.Watch.Ledger
import ChunkWatch.Proofs.Watch.Leftover

/-! The registered directories of a session and its ledger.  From what the source granted and what
was found to be gone alone follows what is registered, and how many are counted. -/

namespace ChunkWatch

namespace Walk

variable {σ : Type} {c : Classifier σ} {fs : FileSystem}

theorem ascending_relevantDirs {root : Path} {memory memory' : σ} {dirs : List Path}
    (h : relevantDirs c fs root memory = .ok (dirs, memory')) : Path.Ascending dirs := by
  simp only [relevantDirs] at h
  generalize hwalk : run c fs _ root [] memory = r at h
  cases r with
  | error e => cases h
  | ok p =>
    cases h
    refine run_made ?_ hwalk List.Pairwise.nil
    intro e dirs dirs' hdirs hascending
    split at hdirs
    · cases hdirs
      exact hascending
    · cases hdirs
      cases (root.join e.path).parent? with
      | none => exact hascending
      | some parent => exact hascending.insertInto

end Walk

namespace Watch

open Record (Stands Orderly)

variable {σ : Type}

/-- The registered directories are those that stand in the ledger, each once, and they are
counted. -/
structure Balanced (rs : List Record) (s : State σ) : Prop where
  registered : ∀ d : Path, d.isIn s.dirs ↔ Stands rs d
  orderly : Orderly rs
  ascending : Path.Ascending s.dirs
  counted : s.stats.dirs = s.dirs.length

namespace Balanced

variable {rs : List Record} {s t : State σ} {dir : Path}

theorem of_same (h : Balanced rs s) (hdirs : t.dirs = s.dirs)
    (hcount : t.stats.dirs = s.stats.dirs) : Balanced rs t where
  registered d := by rw [hdirs, h.registered]
  orderly := h.orderly
  ascending := hdirs ▸ h.ascending
  counted := by rw [hcount, hdirs, h.counted]

theorem grant (h : Balanced rs s) (hnew : ¬dir.isIn s.dirs)
    (hdirs : t.dirs = dir.insertInto s.dirs) (hcount : t.stats.dirs = s.stats.dirs + 1) :
    Balanced (rs ++ [.granted dir]) t where
  registered d := by
    rw [hdirs, Path.isIn_insertInto, h.registered, Record.stands_concat_granted, or_comm]
  orderly := h.orderly.grant (mt (h.registered dir).mpr hnew)
  ascending := hdirs ▸ h.ascending.insertInto
  counted := by rw [hcount, hdirs, Path.length_insertInto hnew, h.counted]

theorem forget (h : Balanced rs s) (hforget : s.forget? dir = some t) :
    Balanced (rs ++ [.forgotten dir]) t := by
  obtain ⟨-, rfl⟩ := State.forget?_eq_some_iff.mp hforget
  constructor
  · intro d
    rw [Record.stands_concat_forgotten, ← h.registered]
    exact State.isIn_filter_startsWith
  · exact h.orderly.forget
  · exact h.ascending.filter _
  · have hle := List.length_filter_le (fun d => !d.startsWith dir) s.dirs
    dsimp only
    rw [h.counted]
    omega

end Balanced

structure State.Grants (new : List Path) (s t : State σ) : Prop where
  registered : t.source.registered = s.source.registered ++ new
  balanced : ∀ rs, Balanced rs s → Balanced (rs ++ new.map .granted) t

theorem Source.registered_of_refused {source source' : Source} {fs : FileSystem} {dir : Path}
    {e : WatchError} (h : source.watch fs dir = (source', some e)) :
    source'.registered = source.registered := by
  rw [Source.watch] at h
  dsimp only at h
  split at h <;> cases h
  rfl

theorem Source.registered_of_granted {source source' : Source} {fs : FileSystem} {dir : Path}
    (h : source.watch fs dir = (source', none)) :
    source'.registered = source.registered ++ [dir] := by
  rw [Source.watch] at h
  dsimp only at h
  split at h <;> cases h
  rfl

namespace State

variable {fs : FileSystem} {s t u : State σ} {new : List Path}

theorem Grants.of_same (hregistered : t.source.registered = s.source.registered)
    (hdirs : t.dirs = s.dirs) (hcount : t.stats.dirs = s.stats.dirs) : Grants [] s t where
  registered := by rw [hregistered, List.append_nil]
  balanced rs h := by
    rw [List.map_nil, List.append_nil]
    exact h.of_same hdirs hcount

theorem Grants.of_registered (h : Registered s t) : Grants [] s t :=
  .of_same (by rw [h.source]) h.dirs h.watched

theorem Grants.trans {later : List Path} (h : Grants new s t) (k : Grants later t u) :
    Grants (new ++ later) s u where
  registered := by rw [k.registered, h.registered, List.append_assoc]
  balanced rs hs := by
    rw [List.map_append, ← List.append_assoc]
    exact k.balanced _ (h.balanced rs hs)

theorem grants_register (fs : FileSystem) (dir : Path) (s : State σ) :
    ∃ new, Grants new s (s.register fs dir) := by
  rw [register]
  split
  · exact ⟨[], .of_registered (.refl s)⟩
  next hnew =>
    split
    next hw => exact ⟨[], .of_same (Source.registered_of_refused hw) rfl rfl⟩
    next hw =>
      exact ⟨[dir], Source.registered_of_granted hw, fun rs h => h.grant hnew rfl rfl⟩

theorem grants_registerAll (fs : FileSystem) (dirs : List Path) (s : State σ) :
    ∃ new, Grants new s (dirs.foldl (register fs) s) := by
  induction dirs generalizing s with
  | nil => exact ⟨[], .of_registered (.refl s)⟩
  | cons dir dirs ih =>
    obtain ⟨new, hnew⟩ := grants_register fs dir s
    obtain ⟨later, hlater⟩ := ih (s.register fs dir)
    exact ⟨_, hnew.trans hlater⟩

theorem grants_arrive (w : Settings σ) (fs : FileSystem) (q : Path) (s : State σ) :
    ∃ new, Grants new s (s.arrive w fs q).2 := by
  have hscan := registered_scan w fs (w.classifier.root.join q) s
  rw [arrive]
  dsimp only
  split
  · exact ⟨[], .of_registered hscan⟩
  · obtain ⟨new, hnew⟩ := grants_registerAll fs _ (s.scan w fs (w.classifier.root.join q)).2
    exact ⟨_, (Grants.of_registered hscan).trans hnew⟩

end State

def Settings.concerned? (w : Settings σ) (p : Path) (kind : ChangeKind) : Option Path :=
  if kind.isContent then (w.classifier.relativePath? p).filter (·.bytes ≠ []) else none

def Settings.forgotten? (w : Settings σ) (fs : FileSystem) (s : State σ) (p : Path)
    (kind : ChangeKind) : Option Path :=
  ((w.concerned? p kind).map w.classifier.root.join).filter fun dir =>
    dir.isIn s.dirs && !fs.exists? dir

/-- A change leads from `s` to `t`.  The source grants some new directories, and these and what the
change forgets balance the ledger again. -/
structure State.Books (w : Settings σ) (fs : FileSystem) (p : Path) (kind : ChangeKind)
    (new : List Path) (s t : State σ) : Prop where
  registered : t.source.registered = s.source.registered ++ new
  balanced : ∀ rs, Balanced rs s → Balanced
    (rs ++ (new.map .granted ++ (w.forgotten? fs s p kind).toList.map .forgotten)) t

theorem Settings.concerned?_eq_some_iff {w : Settings σ} {p q : Path} {kind : ChangeKind} :
    w.concerned? p kind = some q ↔ w.Concerns p kind q := by
  rw [concerned?]
  constructor
  · intro h
    split at h
    next hkind =>
      obtain ⟨hq, hne⟩ := Option.filter_eq_some_iff.mp h
      exact ⟨hkind, hq, of_decide_eq_true hne⟩
    · cases h
  · intro h
    rw [if_pos h.content, h.relative]
    exact Option.filter_eq_some_iff.mpr ⟨rfl, decide_eq_true h.below⟩

theorem Settings.forgotten?_eq_some_iff {w : Settings σ} {fs : FileSystem} {s : State σ}
    {p dir : Path} {kind : ChangeKind} : w.forgotten? fs s p kind = some dir ↔
      ∃ q, w.Concerns p kind q ∧ dir = w.classifier.root.join q ∧ dir.isIn s.dirs ∧
        fs.exists? dir = false := by
  simp only [forgotten?, Option.filter_eq_some_iff, Option.map_eq_some_iff,
    concerned?_eq_some_iff, Bool.and_eq_true, Bool.not_eq_true']
  constructor
  · rintro ⟨⟨q, hq, rfl⟩, hin, hgone⟩
    exact ⟨q, hq, rfl, hin, hgone⟩
  · rintro ⟨q, hq, rfl, hin, hgone⟩
    exact ⟨⟨q, hq, rfl⟩, hin, hgone⟩

namespace State

variable {w : Settings σ} {fs : FileSystem} {s t : State σ} {p q dir : Path} {kind : ChangeKind}
  {ps : List Path}

theorem forgotten?_eq_none (h : ∀ q, w.Concerns p kind q →
    fs.exists? (w.classifier.root.join q) ∨ ¬(w.classifier.root.join q).isIn s.dirs) :
    w.forgotten? fs s p kind = none := by
  rw [Option.eq_none_iff_forall_ne_some]
  intro dir hdir
  obtain ⟨q, hq, rfl, hin, hgone⟩ := Settings.forgotten?_eq_some_iff.mp hdir
  rcases h q hq with hexists | hnot
  · rw [hgone] at hexists
    cases hexists
  · exact hnot hin

theorem forgotten?_of_kept (hq : w.Concerns p kind q)
    (h : fs.exists? (w.classifier.root.join q) ∨ ¬(w.classifier.root.join q).isIn s.dirs) :
    w.forgotten? fs s p kind = none :=
  forgotten?_eq_none fun _ hr => hq.unique hr ▸ h

theorem Grants.books {new : List Path} (h : Grants new s t)
    (k : w.forgotten? fs s p kind = none) : Books w fs p kind new s t where
  registered := h.registered
  balanced rs hs := by
    rw [k, Option.toList_none, List.map_nil, List.append_nil]
    exact h.balanced rs hs

theorem books_of_classified (k : Classified w fs s p kind ps t) :
    ∃ new, Books w fs p kind new s t := by
  have still {t : State σ} (h : Registered s t) (hno : w.forgotten? fs s p kind = none) :
      ∃ new, Books w fs p kind new s t := ⟨[], (Grants.of_registered h).books hno⟩
  cases k with
  | unconcerned hno =>
    exact still ⟨rfl, rfl, rfl⟩ (forgotten?_eq_none fun q hq => absurd hq (hno q))
  | @forgotten q t hq hgone ht =>
    obtain ⟨hin, htdirs⟩ := forget?_eq_some_iff.mp ht
    have hforgotten : w.forgotten? fs s p kind = some (w.classifier.root.join q) :=
      Settings.forgotten?_eq_some_iff.mpr ⟨q, hq, rfl, hin, Bool.eq_false_iff.mpr hgone⟩
    refine ⟨[], ?_, fun rs hs => ?_⟩
    · rw [htdirs, List.append_nil]
      rfl
    · rw [hforgotten]
      exact (hs.forget ht).of_same rfl rfl
  | ignored hq hkept => exact still ⟨rfl, rfl, rfl⟩ (forgotten?_of_kept hq hkept)
  | file hq hkept => exact still ⟨rfl, rfl, rfl⟩ (forgotten?_of_kept hq hkept)
  | @arrived q memory hq hdir =>
    have hasked : Grants [] s { s with memory } := .of_registered ⟨rfl, rfl, rfl⟩
    obtain ⟨new, hnew⟩ := grants_arrive w fs q { s with memory }
    have hkept := forgotten?_of_kept (s := s) hq (.inl (FileSystem.exists_of_isDir hdir))
    exact ⟨_, (hasked.trans hnew).books hkept⟩
  | touched hq hdir =>
    exact still ⟨rfl, rfl, rfl⟩ (forgotten?_of_kept hq (.inl (FileSystem.exists_of_isDir hdir)))

theorem dirs_of_forgotten (k : Classified w fs s p kind ps t)
    (h : w.forgotten? fs s p kind = some dir) :
    t.dirs = s.dirs.filter fun d => !d.startsWith dir := by
  obtain ⟨q, hq, rfl, hin, hgone⟩ := Settings.forgotten?_eq_some_iff.mp h
  have hdir : fs.isDir (w.classifier.root.join q) = false := by
    rw [Bool.eq_false_iff]
    intro hdir
    rw [FileSystem.exists_of_isDir hdir] at hgone
    cases hgone
  rw [dirs_of_classified k hq hdir, if_pos ⟨hin, by simp [hgone]⟩]

end State

def Source.grantedSince (before source : Source) : List Path :=
  source.registered.drop before.registered.length

theorem Source.grantedSince_eq {before source : Source} {new : List Path}
    (h : source.registered = before.registered ++ new) : before.grantedSince source = new := by
  rw [grantedSince, h, List.drop_left]

theorem balanced_of_start {w : Settings σ} {fs : FileSystem} {source : Source} {memory : σ}
    {s : State σ} (hs : start w fs source memory = .ok s) :
    Balanced ((source.grantedSince s.source).map .granted) s := by
  rw [start] at hs
  dsimp only at hs
  split at hs
  · cases hs
  next dirs memory' hdirs =>
    split at hs
    · cases hs
    next hw =>
      have hascending := (Walk.ascending_relevantDirs hdirs).insertInto (q := w.classifier.root)
      cases hs
      rw [Source.grantedSince_eq (congrArg Source.registered (Source.eq_of_watchAll hw))]
      exact ⟨fun d => Record.stands_map_granted.symm,
        Record.orderly_map_granted hascending.pairwise_not_same, hascending, rfl⟩

namespace Move

def forgotten? (w : Settings σ) (m : Move σ) : Option Path :=
  m.classified?.bind fun (p, kind) => w.forgotten? m.before.fs m.before.state p kind

def records (w : Settings σ) (m : Move σ) : List Record :=
  (m.before.state.source.grantedSince m.after.state.source).map .granted ++
    (m.forgotten? w).toList.map .forgotten

variable {w : Settings σ} {m : Move σ} {p dir : Path} {kind : ChangeKind}

theorem forgotten_mem_records : .forgotten dir ∈ m.records w ↔ m.forgotten? w = some dir := by
  simp [records]

theorem forgotten?_eq (h : m.Classifies p kind) :
    m.forgotten? w = w.forgotten? m.before.fs m.before.state p kind := by
  rw [forgotten?, classified?_eq_some_iff.mpr h, Option.bind_some]

theorem classifies_of_forgotten? (h : m.forgotten? w = some dir) : ∃ p kind,
    m.Classifies p kind ∧ w.forgotten? m.before.fs m.before.state p kind = some dir := by
  obtain ⟨⟨p, kind⟩, hclass, hdir⟩ := Option.bind_eq_some_iff.mp h
  exact ⟨p, kind, classified?_eq_some_iff.mp hclass, hdir⟩

theorem records_eq_nil (h : State.Registered m.before.state m.after.state)
    (k : ¬∃ p kind, m.Classifies p kind) : m.records w = [] := by
  have hforgotten : m.forgotten? w = none := by
    rw [Option.eq_none_iff_forall_ne_some]
    intro dir hdir
    obtain ⟨p, kind, hclass, -⟩ := classifies_of_forgotten? hdir
    exact k ⟨p, kind, hclass⟩
  rw [records, hforgotten, h.source, Source.grantedSince, List.drop_length]
  rfl

end Move

namespace Session

def withRefusals (refusal? : FileSystem → Path → Option String) (s : Session σ) : Session σ :=
  { s with state := { s.state with source := { s.state.source with refusal? } } }

/-- Steps of a session whose source may change, in between, what it refuses. -/
inductive Course (w : Settings σ) (h : Handler) : Session σ → List (Move σ) → Session σ → Prop
  | nil {s} : Course w h s [] s
  | cons {s x t moves u} : s.step? w h x = some t → Course w h t moves u →
      Course w h s (⟨s, x, t⟩ :: moves) u
  | turn {s moves u} (refusal? : FileSystem → Path → Option String) :
      Course w h (s.withRefusals refusal?) moves u → Course w h s moves u

variable {w : Settings σ} {h : Handler} {s t u : Session σ} {x : Step} {m : Move σ} {dir : Path}
  {ms : List (Move σ)} {rs : List Record}

theorem balanced_step (hx : s.step? w h x = some t) (hs : Balanced rs s.state)
    (ht : t.state.closed = false) : Balanced (rs ++ (Move.mk s x t).records w) t.state := by
  by_cases hclass : ∃ p kind, (Move.mk s x t).Classifies p kind
  · obtain ⟨p, kind, hclass⟩ := hclass
    obtain ⟨new, hnew, hbalanced⟩ :=
      State.books_of_classified (s.state.classified_change w s.fs p kind)
    have hgranted : s.state.source.grantedSince t.state.source = new := by
      rw [state_of_classifies hx hclass]
      exact Source.grantedSince_eq hnew
    rw [Move.records, hgranted, Move.forgotten?_eq hclass, state_of_classifies hx hclass]
    exact hbalanced rs (hs.of_same rfl rfl)
  · have hregistered := registered_step hx hclass ht
    rw [Move.records_eq_nil hregistered hclass, List.append_nil]
    exact hs.of_same hregistered.dirs hregistered.watched

theorem dirs_of_forgotten (hx : m.before.step? w h m.step = some m.after)
    (hdir : m.forgotten? w = some dir) :
    m.after.state.dirs = m.before.state.dirs.filter fun d => !d.startsWith dir := by
  obtain ⟨p, kind, hclass, hforgotten⟩ := Move.classifies_of_forgotten? hdir
  have k := m.before.state.classified_change w m.before.fs p kind
  rw [state_of_classifies hx hclass, State.dirs_of_forgotten k hforgotten]
  rfl

theorem Run.course (hs : Run w h s ms t) : Course w h s ms t := by
  induction hs with
  | nil => exact .nil
  | cons hx _ ih => exact .cons hx ih

theorem Course.append {ns : List (Move σ)} (hs : Course w h s ms t) (ht : Course w h t ns u) :
    Course w h s (ms ++ ns) u := by
  induction hs with
  | nil => exact ht
  | cons hx _ ih => exact .cons hx (ih ht)
  | turn refusal? _ ih => exact .turn refusal? (ih ht)

theorem Course.split (hs : Course w h s ms t) (hm : m ∈ ms) :
    ∃ before after, Course w h s before m.before ∧ m.before.step? w h m.step = some m.after ∧
      Course w h m.after after t ∧ ms = before ++ m :: after := by
  induction hs with
  | nil => cases hm
  | @cons s x t moves u hx hrest ih =>
    rcases List.mem_cons.mp hm with rfl | hm
    · exact ⟨[], moves, .nil, hx, hrest, rfl⟩
    · obtain ⟨before, after, hbefore, hstep, hafter, rfl⟩ := ih hm
      exact ⟨_ :: before, after, .cons hx hbefore, hstep, hafter, rfl⟩
  | turn refusal? _ ih =>
    obtain ⟨before, after, hbefore, hstep, hafter, rfl⟩ := ih hm
    exact ⟨before, after, .turn refusal? hbefore, hstep, hafter, rfl⟩

theorem Course.closed (hs : Course w h s ms t) (ht : t.state.closed = false) :
    s.state.closed = false := by
  induction hs with
  | nil => exact ht
  | cons hx _ ih => exact closed_step hx (ih ht)
  | turn refusal? _ ih => exact ih ht

theorem Course.balanced (hs : Course w h s ms t) (hbalanced : Balanced rs s.state)
    (ht : t.state.closed = false) : Balanced (rs ++ ms.flatMap (Move.records w)) t.state := by
  induction hs generalizing rs with
  | nil => simpa using hbalanced
  | cons hx hrest ih =>
    rw [List.flatMap_cons, ← List.append_assoc]
    exact ih (balanced_step hx hbalanced (hrest.closed ht)) ht
  | turn refusal? _ ih => exact ih (hbalanced.of_same rfl rfl) ht

end Session

structure Accounted (w : Settings σ) (first : List Record) (ms : List (Move σ)) (t : Session σ) :
    Prop extends Balanced (first ++ ms.flatMap (Move.records w)) t.state where
  subtracted : ∀ m ∈ ms, ∀ dir, .forgotten dir ∈ m.records w →
    m.after.state.stats.dirs + (m.before.state.dirs.filter (·.startsWith dir)).length
      = m.before.state.stats.dirs

namespace Session

variable {w : Settings σ} {h : Handler} {fs : FileSystem} {source : Source} {memory : σ}
  {state : State σ} {ms : List (Move σ)} {t : Session σ}

/-- In every open session, whatever was refused meanwhile, the registered directories are those
that were granted and not forgotten after that; none was granted twice without being forgotten in
between; and the number of them is the one that is counted. -/
theorem accounted_of_course (hstart : start w fs source memory = .ok state)
    (hcourse : Course w h (ofState fs state) ms t) (ht : t.state.closed = false) :
    Accounted w ((source.grantedSince state.source).map .granted) ms t := by
  have hfirst := balanced_of_start hstart
  refine ⟨hcourse.balanced hfirst ht, fun m hm dir hdir => ?_⟩
  obtain ⟨before, after, hbefore, hx, hafter, -⟩ := hcourse.split hm
  -- The session was open all the time, so the ledger was balanced before the step and after it.
  have hopen := hafter.closed ht
  have hb := hbefore.balanced hfirst (closed_step hx hopen)
  have ha := balanced_step hx hb hopen
  have hdirs := dirs_of_forgotten hx (Move.forgotten_mem_records.mp hdir)
  have hlength := List.length_eq_length_filter_add (l := m.before.state.dirs) (·.startsWith dir)
  rw [hb.counted, hlength, ha.counted, hdirs, Nat.add_comm]

-- A course to see it by.  The watched `/w/d` is removed, which an event tells; it is made again
-- while the source refuses it, and granted when another event comes after that.
def tellOf (kind : ChangeKind) : List Step :=
  [.send (.change (.ofString "/w/d") kind), .drain, .classify, .accept]

def awayRun : List (Move Unit) × Session Unit :=
  follow (.takingAll (.ofString "/w") 5) .channel
    (.change (.ofString "/w") (.remove (.ofString "d")) :: tellOf .remove)
    (ofState nestedFile (.watching [.ofString "/w", .ofString "/w/d"]))

def refusedRun : List (Move Unit) × Session Unit :=
  follow (.takingAll (.ofString "/w") 5) .channel
    (.change (.ofString "/w") (.mkdir (.ofString "d")) :: tellOf .create)
    (awayRun.2.withRefusals (Source.refusing [.ofString "/w/d"]).refusal?)

def grantedRun : List (Move Unit) × Session Unit :=
  follow (.takingAll (.ofString "/w") 5) .channel (tellOf .create)
    (refusedRun.2.withRefusals Source.ofDirectories.refusal?)

theorem accounted_of_refused_return :
    start (.takingAll (.ofString "/w") 5) nestedFile .ofDirectories () =
        .ok (.watching [.ofString "/w", .ofString "/w/d"]) ∧
      grantedRun.2.state.closed = false ∧
      (awayRun.1 ++ (refusedRun.1 ++ grantedRun.1)).flatMap
          (Move.records (.takingAll (.ofString "/w") 5)) =
        [.forgotten (.ofString "/w/d"), .granted (.ofString "/w/d")] ∧
      refusedRun.2.state.dirs = [.ofString "/w"] ∧
      Accounted (.takingAll (.ofString "/w") 5)
        [.granted (.ofString "/w"), .granted (.ofString "/w/d")]
        (awayRun.1 ++ (refusedRun.1 ++ grantedRun.1)) grantedRun.2 := by
  have hstart : start (.takingAll (.ofString "/w") 5) nestedFile .ofDirectories () =
      .ok (.watching [.ofString "/w", .ofString "/w/d"]) := rfl
  have haway : Course (.takingAll (.ofString "/w") 5) .channel
      (ofState nestedFile (.watching [.ofString "/w", .ofString "/w/d"])) awayRun.1 awayRun.2 :=
    (run_follow ..).course
  have hrefused : Course (.takingAll (.ofString "/w") 5) .channel awayRun.2 refusedRun.1
      refusedRun.2 := .turn _ (run_follow ..).course
  have hgranted : Course (.takingAll (.ofString "/w") 5) .channel refusedRun.2 grantedRun.1
      grantedRun.2 := .turn _ (run_follow ..).course
  have hopen : grantedRun.2.state.closed = false := by decide +kernel
  refine ⟨hstart, hopen, by decide +kernel, by decide +kernel, ?_⟩
  exact accounted_of_course hstart (haway.append (hrefused.append hgranted)) hopen

end Session

end Watch

end ChunkWatch
