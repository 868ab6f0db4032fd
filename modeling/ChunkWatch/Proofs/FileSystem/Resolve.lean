import ChunkWatch.FileSystem.Resolve
import ChunkWatch.Proofs.FileSystem.Entries

namespace ChunkWatch.FileSystem

open Component (IsName)

/-- Segments lead from one place to another over at most so many links. -/
inductive Leads (fs : FileSystem) (follow : Bool) : Nat → Place → List Bytes → Place → Prop
  | done : Leads fs follow k here [] here
  | dot : fs.at? here = some (.dir es) → Leads fs follow k here ss place →
      Leads fs follow k here ([dot] :: ss) place
  | parent : fs.at? here = some (.dir es) → Leads fs follow k here.dropLast ss place →
      Leads fs follow k here ([ChunkWatch.dot, ChunkWatch.dot] :: ss) place
  | last : fs.at? here = some (.dir es) → s ≠ [ChunkWatch.dot] →
      s ≠ [ChunkWatch.dot, ChunkWatch.dot] → es.get? s = some (.link target) → follow = false →
      Leads fs follow k here [s] (here ++ [s])
  | link : fs.at? here = some (.dir es) → s ≠ [ChunkWatch.dot] →
      s ≠ [ChunkWatch.dot, ChunkWatch.dot] → es.get? s = some (.link target) →
      ss ≠ [] ∨ follow = true →
      Leads fs follow k (if target.head? = some slash then [] else here) (segments target ++ ss)
        place →
      Leads fs follow (k + 1) here (s :: ss) place
  | enter : fs.at? here = some (.dir es) → s ≠ [ChunkWatch.dot] →
      s ≠ [ChunkWatch.dot, ChunkWatch.dot] → es.get? s = some e →
      (∀ target, e ≠ .link target) → Leads fs follow k (here ++ [s]) ss place →
      Leads fs follow k here (s :: ss) place

variable {fs : FileSystem} {follow : Bool} {links : Nat} {here place : Place} {ss : List Bytes}

theorem leads_of_walk {onLink : Place → List Bytes → Except IoError Place}
    (h : fs.walk follow onLink here ss = .ok place)
    (k : ∀ here ss, onLink here ss = .ok place →
      ∃ fewer, links = fewer + 1 ∧ fs.Leads follow fewer here ss place) :
    fs.Leads follow links here ss place := by
  induction ss generalizing here with
  | nil =>
    cases h
    exact .done
  | cons s ss ih =>
    rw [walk] at h
    split at h
    next es hdir =>
      split at h
      next hdot =>
        subst hdot
        exact .dot hdir (ih h)
      next hdot =>
        split at h
        next hparent =>
          subst hparent
          exact .parent hdir (ih h)
        next hparent =>
          split at h
          · cases h
          next target hlink =>
            split at h
            next hlast =>
              cases h
              rw [hlast.1]
              exact .last hdir hdot hparent hlink (by simpa using hlast.2)
            next hlast =>
              obtain ⟨fewer, rfl, hfewer⟩ := k _ _ h
              have hon : ss ≠ [] ∨ follow = true := by
                rw [not_and_or] at hlast
                exact hlast.imp_right (by simp)
              exact .link hdir hdot hparent hlink hon hfewer
          next e hno hentry => exact .enter hdir hdot hparent hentry hno (ih h)
    · cases h
    · cases h

theorem leads_iff : fs.Leads follow links here ss place ↔
    fs.walkLinks follow (links + 1) here ss = .ok place := by
  constructor
  · intro h
    induction h with
    | done => rfl
    | dot hdir _ ih =>
      rw [walkLinks, walk, hdir]
      exact ih
    | parent hdir _ ih =>
      rw [walkLinks, walk, hdir]
      exact ih
    | last hdir hdot hparent hlink hfollow =>
      simp [walkLinks, walk, hdir, hdot, hparent, hlink, hfollow]
    | @link here es s target ss links place hdir hdot hparent hlink hon _ ih =>
      have hlast : ¬(ss = [] ∧ ¬follow = true) := by
        rw [not_and_or]
        exact hon.imp_right (by simp)
      rw [walkLinks, walk, hdir]
      simp only [if_neg hdot, if_neg hparent, hlink]
      rw [if_neg hlast]
      exact ih
    | @enter here es s e links ss place hdir hdot hparent hentry hno _ ih =>
      rw [walkLinks, walk, hdir]
      simp only [if_neg hdot, if_neg hparent, hentry]
      cases e with
      | link target => exact absurd rfl (hno target)
      | file content => exact ih
      | dir es => exact ih
  · intro h
    induction links generalizing here ss with
    | zero =>
      apply leads_of_walk h
      intro here ss hlink
      cases hlink
    | succ links ih =>
      apply leads_of_walk h
      intro here ss hlink
      exact ⟨links, rfl, ih hlink⟩

theorem Leads.of_name {s : Bytes} (h : fs.Leads true links here (s :: ss) place) (hs : IsName s) :
    ∃ es e, fs.at? here = some (.dir es) ∧ es.get? s = some e ∧
      ((∃ target, e = .link target) ∨ fs.Leads true links (here ++ [s]) ss place) := by
  obtain ⟨-, -, hdot, hparent⟩ := Component.ofSegment?_eq_name_iff.mp hs.2
  cases h with
  | dot => exact absurd rfl hdot
  | parent => exact absurd rfl hparent
  | last _ _ _ _ hfollow => cases hfollow
  | link hdir _ _ hlink => exact ⟨_, _, hdir, hlink, .inl ⟨_, rfl⟩⟩
  | enter hdir _ _ hentry _ hrest => exact ⟨_, _, hdir, hentry, .inr hrest⟩

theorem Leads.following (h : fs.Leads false links here ss place)
    (k : ∀ target, fs.at? place ≠ some (.link target)) : fs.Leads true links here ss place := by
  induction h with
  | done => exact .done
  | dot hdir _ ih => exact .dot hdir (ih k)
  | parent hdir _ ih => exact .parent hdir (ih k)
  | last hdir hdot hparent hlink =>
    rw [at?_concat hdir] at k
    exact absurd hlink (k _)
  | link hdir hdot hparent hlink _ _ ih => exact .link hdir hdot hparent hlink (.inr rfl) (ih k)
  | enter hdir hdot hparent hentry hno _ ih =>
    exact .enter hdir hdot hparent hentry hno (ih k)

theorem Leads.unfollow {e : Entry} (h : fs.Leads true links here ss place)
    (k : fs.at? place = some e) : ∃ last f, fs.Leads false links here ss last ∧
      fs.at? last = some f := by
  induction h with
  | done => exact ⟨_, _, .done, k⟩
  | dot hdir _ ih =>
    obtain ⟨last, f, hlast, hf⟩ := ih k
    exact ⟨last, f, .dot hdir hlast, hf⟩
  | parent hdir _ ih =>
    obtain ⟨last, f, hlast, hf⟩ := ih k
    exact ⟨last, f, .parent hdir hlast, hf⟩
  | last _ _ _ _ hfollow => cases hfollow
  | @link here es s target ss links place hdir hdot hparent hlink _ _ ih =>
    by_cases hss : ss = []
    · rw [hss]
      exact ⟨_, _, .last hdir hdot hparent hlink rfl, (at?_concat hdir s).trans hlink⟩
    · obtain ⟨last, f, hlast, hf⟩ := ih k
      exact ⟨last, f, .link hdir hdot hparent hlink (.inl hss) hlast, hf⟩
  | enter hdir hdot hparent hentry hno _ ih =>
    obtain ⟨last, f, hlast, hf⟩ := ih k
    exact ⟨last, f, .enter hdir hdot hparent hentry hno hlast, hf⟩

theorem Leads.append {follow : Bool} {ts : List Bytes} {last : Place}
    (h : fs.Leads true links here ss place) (hts : ts ≠ [])
    (k : ∀ links, fs.Leads follow links place ts last) :
    fs.Leads follow links here (ss ++ ts) last := by
  induction h with
  | done => exact k _
  | dot hdir _ ih => exact .dot hdir (ih k)
  | parent hdir _ ih => exact .parent hdir (ih k)
  | last _ _ _ _ hfollow => cases hfollow
  | link hdir hdot hparent hlink _ _ ih =>
    have hrest := ih k
    rw [List.append_assoc] at hrest
    exact .link hdir hdot hparent hlink (.inl (by simp [hts])) hrest
  | enter hdir hdot hparent hentry hno _ ih =>
    exact .enter hdir hdot hparent hentry hno (ih k)

inductive Undotted : List Bytes → List Bytes → Prop
  | nil : Undotted [] []
  | keep {s ss ts} : Undotted ss ts → Undotted (s :: ss) (s :: ts)
  | drop {ss ts} : Undotted ss ts → Undotted ([ChunkWatch.dot] :: ss) ts

theorem Undotted.append {ts : List Bytes} (h : Undotted ss ts) (us : List Bytes) :
    Undotted (us ++ ss) (us ++ ts) := by
  induction us with
  | nil => exact h
  | cons u us ih => exact .keep ih

theorem Leads.undot {ts : List Bytes} (h : fs.Leads true links here ss place)
    (k : Undotted ss ts) : fs.Leads true links here ts place := by
  induction h generalizing ts with
  | done =>
    cases k
    exact .done
  | dot hdir _ ih =>
    cases k with
    | keep k => exact .dot hdir (ih k)
    | drop k => exact ih k
  | parent hdir _ ih =>
    cases k with
    | keep k => exact .parent hdir (ih k)
  | last _ _ _ _ hfollow => cases hfollow
  | link hdir hdot hparent hlink _ _ ih =>
    cases k with
    | keep k => exact .link hdir hdot hparent hlink (.inr rfl) (ih (k.append _))
    | drop k => exact absurd rfl hdot
  | enter hdir hdot hparent hentry hno _ ih =>
    cases k with
    | keep k => exact .enter hdir hdot hparent hentry hno (ih k)
    | drop k => exact absurd rfl hdot

theorem Leads.undot_some {ts : List Bytes} {e : Entry} (h : fs.Leads false links here ss place)
    (k : Undotted ss ts) (he : fs.at? place = some e) :
    ∃ last f, fs.Leads false links here ts last ∧ fs.at? last = some f := by
  induction h generalizing ts with
  | done =>
    cases k
    exact ⟨_, _, .done, he⟩
  | dot hdir _ ih =>
    cases k with
    | keep k =>
      obtain ⟨last, f, hlast, hf⟩ := ih k he
      exact ⟨last, f, .dot hdir hlast, hf⟩
    | drop k => exact ih k he
  | parent hdir _ ih =>
    cases k with
    | keep k =>
      obtain ⟨last, f, hlast, hf⟩ := ih k he
      exact ⟨last, f, .parent hdir hlast, hf⟩
  | last hdir hdot hparent hlink =>
    cases k with
    | keep k =>
      cases k
      exact ⟨_, _, .last hdir hdot hparent hlink rfl, (at?_concat hdir _).trans hlink⟩
    | drop k => exact absurd rfl hdot
  | @link here es s target ss links place hdir hdot hparent hlink _ _ ih =>
    cases k with
    | @keep _ _ ts k =>
      by_cases hts : ts = []
      · rw [hts]
        exact ⟨_, _, .last hdir hdot hparent hlink rfl, (at?_concat hdir _).trans hlink⟩
      · obtain ⟨last, f, hlast, hf⟩ := ih (k.append _) he
        exact ⟨last, f, .link hdir hdot hparent hlink (.inl hts) hlast, hf⟩
    | drop k => exact absurd rfl hdot
  | enter hdir hdot hparent hentry hno _ ih =>
    cases k with
    | keep k =>
      obtain ⟨last, f, hlast, hf⟩ := ih k he
      exact ⟨last, f, .enter hdir hdot hparent hentry hno hlast, hf⟩
    | drop k => exact absurd rfl hdot

theorem resolve_iff {p : Path} : fs.resolve follow p = .ok place ↔
    p.bytes ≠ [] ∧
      fs.Leads follow 40 (if p.isAbsolute then [] else fs.cwd) (segments p.bytes) place := by
  rw [resolve, leads_iff]
  split
  next h => simp [h]
  next h => simp [h]

theorem entry?_iff {p : Path} {e : Entry} : fs.entry? follow p = .ok e ↔
    ∃ place, fs.resolve follow p = .ok place ∧ fs.at? place = some e := by
  unfold entry?
  cases hp : fs.resolve follow p with
  | error reason => simp [bind, Except.bind]
  | ok place =>
    simp only [bind, Except.bind, Except.ok.injEq, exists_eq_left']
    cases fs.at? place with
    | none => simp [throw, throwThe, MonadExceptOf.throw]
    | some f => simp [pure, Except.pure]

theorem entry?_following {p : Path} {e : Entry} (h : fs.entry? false p = .ok e)
    (k : ∀ target, e ≠ .link target) : fs.entry? true p = .ok e := by
  obtain ⟨place, hplace, he⟩ := entry?_iff.mp h
  obtain ⟨hne, hleads⟩ := resolve_iff.mp hplace
  refine entry?_iff.mpr ⟨place, resolve_iff.mpr ⟨hne, hleads.following fun target ht => ?_⟩, he⟩
  rw [he] at ht
  exact k target (Option.some.inj ht)

theorem entry?_unfollow {p : Path} {e : Entry} (h : fs.entry? true p = .ok e) :
    ∃ f, fs.entry? false p = .ok f := by
  obtain ⟨place, hplace, he⟩ := entry?_iff.mp h
  obtain ⟨hne, hleads⟩ := resolve_iff.mp hplace
  obtain ⟨last, f, hlast, hf⟩ := hleads.unfollow he
  exact ⟨f, entry?_iff.mpr ⟨last, resolve_iff.mpr ⟨hne, hlast⟩, hf⟩⟩

theorem isDir_iff {p : Path} : fs.isDir p ↔ ∃ es, fs.entry? true p = .ok (.dir es) := by
  rw [isDir]
  cases fs.entry? true p with
  | error reason => simp
  | ok e => cases e <;> simp [Entry.isDir]

theorem undotted_refl (ss : List Bytes) : Undotted ss ss := by
  induction ss with
  | nil => exact .nil
  | cons s ss ih => exact .keep ih

theorem undotted_filter (ss : List Bytes) : Undotted ss (ss.filter (· ≠ [ChunkWatch.dot])) := by
  induction ss with
  | nil => exact .nil
  | cons s ss ih =>
    by_cases hs : s = [ChunkWatch.dot]
    · rw [hs, List.filter_cons_of_neg (by simp)]
      exact .drop ih
    · rw [List.filter_cons_of_pos (by simpa using hs)]
      exact .keep ih

/-- The segments of a path but for the dot that a slash at its end stands for. -/
def names (s : Bytes) : List Bytes := (s.splitOn slash).filter (· ≠ [])

theorem undotted_segments (s : Bytes) : Undotted (segments s) (names s) := by
  rw [segments, names]
  have happ := (Undotted.nil.drop).append ((s.splitOn slash).filter (· ≠ []))
  split
  · simpa using happ
  · simpa using undotted_refl _

theorem names_append (s t : Bytes) : names (s ++ slash :: t) = names s ++ names t := by
  simp [names, Bytes.splitOn_append]

theorem names_of_isName {n : Bytes} (h : IsName n) : names n = [n] := by
  have hne : n ≠ [] := (Component.ofSegment?_eq_name_iff.mp h.2).2.1
  simp [names, Bytes.splitOn_of_not_mem h.1, hne]

theorem names_push {p : Path} {n : Bytes} (hn : IsName n) :
    names (p.push n).bytes = names p.bytes ++ [n] := by
  by_cases h : p.bytes = []
  · have hp : p = ⟨[]⟩ := congrArg Path.mk h
    rw [hp, Path.push_empty hn.1, names_of_isName hn]
    rfl
  · obtain ⟨s, hpush, hp⟩ := Path.push_bytes h hn.1
    have hnames : names p.bytes = names s := by
      rcases hp with hp | hp
      · rw [hp]
      · rw [hp, names_append]
        simp [names, Bytes.splitOn]
    rw [hpush, names_append, names_of_isName hn, hnames]

theorem names_pushAll {p : Path} {ns : List Bytes} (h : ∀ n ∈ ns, IsName n) :
    names (p.pushAll ns).bytes = names p.bytes ++ ns := by
  induction ns generalizing p with
  | nil => simp
  | cons n ns ih =>
    rw [Path.pushAll_cons, ih fun m hm => h m (List.mem_cons_of_mem n hm),
      names_push (h n List.mem_cons_self)]
    simp

theorem segments_push {p : Path} {n : Bytes} (h : p.bytes ≠ []) (hn : IsName n) :
    segments (p.push n).bytes = names p.bytes ++ [n] := by
  obtain ⟨s, hpush, -⟩ := Path.push_bytes h hn.1
  have hend : (s ++ slash :: n).getLast? ≠ some slash := by
    have hne : n ≠ [] := (Component.ofSegment?_eq_name_iff.mp hn.2).2.1
    intro hlast
    rw [List.getLast?_append_of_ne_nil _ (List.cons_ne_nil slash n),
      List.getLast?_cons_of_ne_nil hne] at hlast
    exact hn.1 (List.mem_of_getLast? hlast)
  have hsegments : segments (s ++ slash :: n) = names (s ++ slash :: n) := by
    rw [segments, if_neg hend, List.append_nil, names]
  rw [← names_push hn, hpush, hsegments]

theorem resolve_push {p : Path} {n : Bytes} {e : Entry} {es : Entries} (hn : IsName n)
    (hp : fs.resolve true p = .ok place) (hdir : fs.at? place = some (.dir es))
    (he : es.get? n = some e) (hfollow : ∀ target, e = .link target → follow = false) :
    fs.resolve follow (p.push n) = .ok (place ++ [n]) := by
  obtain ⟨hne, hleads⟩ := resolve_iff.mp hp
  obtain ⟨-, -, hdot, hparent⟩ := Component.ofSegment?_eq_name_iff.mp hn.2
  have hlast : ∀ links, fs.Leads follow links place [n] (place ++ [n]) := by
    intro links
    cases e with
    | link target => exact .last hdir hdot hparent he (hfollow target rfl)
    | file content => exact .enter hdir hdot hparent he nofun .done
    | dir es => exact .enter hdir hdot hparent he nofun .done
  rw [resolve_iff, Path.isAbsolute_push hn.1, segments_push hne hn]
  refine ⟨?_, (hleads.undot (undotted_segments p.bytes)).append (List.cons_ne_nil n []) hlast⟩
  obtain ⟨s, hpush, -⟩ := Path.push_bytes hne hn.1
  rw [hpush]
  simp

theorem entry?_pushAll {p : Path} {ns : List Bytes} {e : Entry} {es : Entries} (hs : fs.Sound)
    (hp : fs.entry? true p = .ok (.dir es)) (he : (Entry.dir es).at? ns = some e)
    (hno : ∀ target, e ≠ .link target) : fs.entry? true (p.pushAll ns) = .ok e := by
  induction ns generalizing p es with
  | nil =>
    cases he
    exact hp
  | cons n ns ih =>
    obtain ⟨f, hf, he⟩ := Option.bind_eq_some_iff.mp he
    obtain ⟨place, hplace, hdir⟩ := entry?_iff.mp hp
    have hn := (hs.entries hdir).isName (Entries.mem_of_get? hf)
    have hf' (hlink : ∀ target, f ≠ .link target) : fs.entry? true (p.push n) = .ok f := by
      have hlast : fs.resolve true (p.push n) = .ok (place ++ [n]) :=
        resolve_push hn hplace hdir hf fun target ht => absurd ht (hlink target)
      exact entry?_iff.mpr ⟨_, hlast, (at?_concat hdir n).trans hf⟩
    rw [Path.pushAll_cons]
    cases f with
    | dir ds => exact ih (hf' nofun) he
    | file s =>
      cases ns with
      | nil =>
        cases he
        exact hf' hno
      | cons m ms => cases he
    | link s =>
      cases ns with
      | nil =>
        cases he
        exact hf' hno
      | cons m ms => cases he

theorem isName_of_at? {ns : List Bytes} {e f : Entry} (h : e.Sound) (he : e.at? ns = some f) :
    ∀ n ∈ ns, IsName n := by
  induction ns generalizing e with
  | nil => simp
  | cons n ns ih =>
    cases e with
    | dir es =>
      obtain ⟨g, hg, he⟩ := Option.bind_eq_some_iff.mp he
      have hmem := Entries.mem_of_get? hg
      rw [Entry.Sound] at h
      exact List.forall_mem_cons.mpr ⟨h.isName hmem, ih (h.entry hmem) he⟩
    | file s => cases he
    | link s => cases he

theorem getLast?_of_cons {s : Bytes} (hs : s ≠ [dot]) (h : (s :: ss).getLast? = some [dot]) :
    ss.getLast? = some [dot] := by
  cases ss with
  | nil => exact absurd (Option.some.inj h) hs
  | cons s' ss => rwa [List.getLast?_cons_cons] at h

theorem Leads.isDir_of_dot (h : fs.Leads follow links here ss place)
    (hlast : ss.getLast? = some [ChunkWatch.dot]) : ∃ es, fs.at? place = some (.dir es) := by
  induction h with
  | done => cases hlast
  | @dot here es links ss place hdir hrest ih =>
    cases ss with
    | nil =>
      cases hrest
      exact ⟨es, hdir⟩
    | cons s ss => exact ih (by rwa [List.getLast?_cons_cons] at hlast)
  | parent _ _ ih => exact ih (getLast?_of_cons (by decide) hlast)
  | last _ hdot => exact absurd (Option.some.inj hlast) hdot
  | link _ hdot _ _ _ _ ih =>
    exact ih (by rw [List.getLast?_append, getLast?_of_cons hdot hlast, Option.some_or])
  | enter _ hdot _ _ _ _ ih => exact ih (getLast?_of_cons hdot hlast)

/-- A slash at the end of a path leads through a link, even if links are not followed. -/
theorem isDir_of_slash {p : Path} {e : Entry} (h : p.bytes.getLast? = some slash)
    (he : fs.entry? false p = .ok e) : e.isDir := by
  obtain ⟨place, hplace, hentry⟩ := entry?_iff.mp he
  obtain ⟨-, hleads⟩ := resolve_iff.mp hplace
  obtain ⟨es, hes⟩ := hleads.isDir_of_dot (by rw [segments, if_pos h, List.getLast?_concat])
  rw [Option.some.inj (hentry.symm.trans hes)]
  rfl

def LinksToDir (fs : FileSystem) (p : Path) : Prop :=
  (∃ target, fs.entry? false p = .ok (.link target)) ∧ fs.isDir p

theorem isDir_pushAll {p : Path} {es : Entries} {ns : Place} {e : Entry}
    (hs : fs.Sound) (hp : fs.entry? true p = .ok (.dir es)) (he : (Entry.dir es).at? ns = some e)
    (hno : ∀ target, e ≠ .link target) : fs.isDir (p.pushAll ns) = e.isDir := by
  rw [isDir, entry?_pushAll hs hp he hno]

def firstName? (fs : FileSystem) (dir : Path) : Option Bytes :=
  match fs.entry? true dir with
  | .ok (.dir (.cons name _ _)) => some name
  | _ => none

theorem eq_cons_of_firstName? {dir : Path} {name : Bytes} {ns : Place}
    {es ds : Entries} (hs : fs.Sound) (hdir : fs.entry? true dir = .ok (.dir es))
    (hat : (Entry.dir es).at? ns = some (.dir ds))
    (h : fs.firstName? (dir.pushAll ns) = some name) : ∃ e rest, ds = .cons name e rest := by
  rw [firstName?, entry?_pushAll hs hdir hat nofun] at h
  cases ds with
  | nil => cases h
  | cons n e rest =>
    cases h
    exact ⟨e, rest, rfl⟩

def holding (content : Bytes) : Place → FileSystem
  | [] => ⟨.nil, []⟩
  | n :: ns => ⟨.cons n (.under ns (.file content)) .nil, []⟩

theorem sound_holding {ns : Place} (content : Bytes) (hns : ∀ n ∈ ns, IsName n) :
    (holding content ns).Sound := by
  cases ns with
  | nil => exact ⟨trivial, nofun⟩
  | cons n ns =>
    obtain ⟨hn, hns⟩ := List.forall_mem_cons.mp hns
    exact ⟨⟨hn, nofun, Entry.Sound.under trivial hns, trivial⟩, nofun⟩

theorem readText_of_read {p : Path} {content : Bytes} (h : fs.read p = .ok content) :
    fs.readText p = if content.isText then .ok content else .error .notText := by
  rw [readText, h]
  rfl

theorem read_holding {ns : Place} (content : Bytes) (hne : ns ≠ []) (hns : ∀ n ∈ ns, IsName n) :
    (holding content ns).read (Path.join ⟨[slash]⟩ ⟨Bytes.join slash ns⟩) = .ok content := by
  have htop (fs : FileSystem) : fs.entry? true ⟨[slash]⟩ = .ok (.dir fs.top) := rfl
  have hat : (Entry.dir (holding content ns).top).at? ns = some (.file content) := by
    cases ns with
    | nil => exact absurd rfl hne
    | cons n ns => exact Entry.at?_under (n :: ns) (.file content)
  rw [← Path.pushAll_empty hns, Path.join_pushAll_empty _ hne hns, FileSystem.read,
    entry?_pushAll (sound_holding content hns) (htop _) hat nofun]
  rfl

end ChunkWatch.FileSystem
