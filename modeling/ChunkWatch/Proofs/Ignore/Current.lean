import ChunkWatch.Proofs.Ignore.Cache
import ChunkWatch.Proofs.Path.Strip

namespace ChunkWatch.Ignore

open Component (IsName)

def Cache.Current (fs : FileSystem) (dir : Path) (c : Cache) : Prop :=
  ∀ m, c.get? dir = some m → m = loadNested fs dir

namespace Cache

variable {fs : FileSystem} {dir other : Path} {m : Option Matcher} {c : Cache}

theorem get?_cons : get? ((other, m) :: c) dir = if other.same dir then some m else c.get? dir := by
  rw [get?, List.find?_cons]
  cases hsame : other.same dir with
  | true => rfl
  | false => rfl

theorem get?_forget : (c.forget other).get? dir = if other.same dir then none else c.get? dir := by
  rw [get?, forget, List.find?_filter]
  split
  next hsame =>
    rw [Option.map_eq_none_iff, List.find?_eq_none]
    intro e _ hkept
    rw [Bool.decide_and, Bool.decide_eq_true, Bool.decide_eq_true, Bool.and_eq_true] at hkept
    obtain ⟨hother, hdir⟩ := hkept
    rw [Path.same_trans hdir (Path.same_symm hsame)] at hother
    cases hother
  next hdifferent =>
    rw [get?]
    congr 2
    funext e
    cases hdir : e.1.same dir with
    | false => simp
    | true =>
      have hother : e.1.same other = false := by
        rw [Bool.eq_false_iff]
        exact fun h => hdifferent (Path.same_trans (Path.same_symm h) hdir)
      simp [hother]

theorem current_nil (fs : FileSystem) (dir : Path) : Current fs dir [] := nofun

theorem Current.forget (h : c.Current fs dir) (other : Path) : (c.forget other).Current fs dir := by
  intro m hm
  rw [get?_forget] at hm
  split at hm
  · cases hm
  · exact h m hm

theorem current_forget (h : other.same dir) : (c.forget other).Current fs dir := by
  intro m hm
  rw [get?_forget, if_pos h] at hm
  cases hm

theorem Current.nested (h : c.Current fs dir) (k : other.same dir → other = dir) :
    (Layers.nested fs other c).2.Current fs dir := by
  rw [Layers.nested]
  split
  · exact h
  · intro m hm
    rw [get?_cons] at hm
    split at hm
    next hsame =>
      rw [k hsame] at hm
      exact (Option.some.inj hm).symm
    · exact h m hm

theorem Current.nested_eq (h : c.Current fs dir) :
    (Layers.nested fs dir c).1 = loadNested fs dir := by
  rw [Layers.nested]
  split
  next m hm => exact h m hm
  · rfl

end Cache

namespace Layers

variable {l : Layers} {fs : FileSystem} {c c' : Cache} {p q : Path} {pre cs ds : List Component}

def Below (cs : List Component) : Prop := ∀ s ∈ cs, s = .parent ∨ ∃ t, IsName t ∧ s = .name t

theorem below_segmentComponents (s : Bytes) : Below (Path.segmentComponents s) :=
  fun _ => Path.mem_segmentComponents

theorem below_names {names : List Bytes} (h : ∀ n ∈ names, IsName n) :
    Below (names.map .name) := by
  intro s hs
  obtain ⟨n, hn, rfl⟩ := List.mem_map.mp hs
  exact .inr ⟨n, h n hn, rfl⟩

theorem Below.toward (h : Below cs) (k : ds <+: cs) : Below ds := fun s hs => h s (k.subset hs)

theorem along_append (p : Path) (cs ds : List Component) :
    along p (cs ++ ds) = along (along p cs) ds := List.foldl_append

theorem along_concat (p : Path) (cs : List Component) (s : Component) :
    along p (cs ++ [s]) = (along p cs).push (componentPath s) := along_append p cs [s]

theorem along_eq_of_same (hcs : Below cs) (hds : Below ds)
    (h : (along p cs).same (along p ds)) : along p cs = along p ds := by
  rw [Path.same_iff, components_along hcs, components_along hds] at h
  rw [List.append_cancel_left h]

theorem current_descend {matchers : List Matcher} (h : c.Current fs (along l.root ds))
    (hds : Below ds) (k : Below (pre ++ cs)) :
    (descend fs (along l.root pre) matchers cs c).2.Current fs (along l.root ds) := by
  induction cs generalizing pre matchers c with
  | nil => exact h
  | cons s cs ih =>
    rw [descend, ← along_concat]
    split
    · exact h
    · split
      · exact h
      · have hpre : Below (pre ++ [s]) := k.toward ⟨cs, by simp⟩
        exact ih (h.nested (along_eq_of_same hpre hds)) (by simpa using k)

theorem descend_congr {matchers : List Matcher} (k : Below (pre ++ cs))
    (h : ∀ ds, ds ≠ [] → ds <+: cs.dropLast → c.Current fs (along l.root (pre ++ ds)) ∧
      c'.Current fs (along l.root (pre ++ ds))) :
    (descend fs (along l.root pre) matchers cs c).1
      = (descend fs (along l.root pre) matchers cs c').1 := by
  induction cs generalizing pre matchers c c' with
  | nil => rfl
  | cons s cs ih =>
    rw [descend, descend, ← along_concat]
    split
    · rfl
    · cases cs with
      | nil => rfl
      | cons u cs =>
        rw [List.dropLast_cons_cons] at h
        have hpre : Below (pre ++ [s]) := k.toward ⟨u :: cs, by simp⟩
        obtain ⟨hc, hc'⟩ := h [s] (by simp) (List.cons_prefix_cons.mpr ⟨rfl, List.nil_prefix⟩)
        rw [List.isEmpty_cons, if_neg Bool.false_ne_true, if_neg Bool.false_ne_true]
        dsimp only
        rw [hc.nested_eq, hc'.nested_eq]
        apply ih (by simpa using k)
        intro ds hne hds
        have hbelow : Below (pre ++ [s] ++ ds) := by
          apply k.toward
          obtain ⟨rest, hrest⟩ := hds.trans (List.dropLast_prefix _)
          exact ⟨rest, by simp [← hrest]⟩
        obtain ⟨hd, hd'⟩ := h (s :: ds) (by simp) (List.cons_prefix_cons.mpr ⟨rfl, hds⟩)
        rw [List.append_cons] at hd hd'
        have hsame := along_eq_of_same (p := l.root) hpre hbelow
        exact ⟨hd.nested hsame, hd'.nested hsame⟩

theorem current_refresh {dir : Path} (h : c.Current fs dir) (l : Layers) (q : Path) :
    (l.refresh q c).Current fs dir := by
  rw [refresh]
  split
  · split
    · exact h.forget _
    · exact h
  · exact h

theorem current_refresh_of_file (h : q.lead = none)
    (k : q.components = cs ++ [.name ignoreFileName]) :
    (l.refresh q c).Current fs (along l.root cs) := by
  obtain ⟨parent, hparent, hbare, hcomponents⟩ := Path.parent?_of_lead_none h (by simp [k])
  have hname : q.fileName? = some ignoreFileName := by
    rw [Path.fileName?, k, List.getLast?_concat]
  rw [k, List.dropLast_concat] at hcomponents
  rw [refresh, if_pos hname, hparent]
  apply Cache.current_forget
  have hbelow : Below cs := by
    have hq := below_segmentComponents q.bytes
    rw [Path.components_eq, h, Option.toList_none, List.nil_append] at k
    rw [k] at hq
    exact hq.toward ⟨_, rfl⟩
  rw [Path.same_iff, Path.components_join hbare, hcomponents, components_along hbelow]

def CurrentBelow (fs : FileSystem) (root : Path) (c : Cache) : Prop :=
  ∀ ds, Below ds → c.Current fs (along root ds)

/-- The rules that an answer for some components goes by are those of the files: no others are
remembered of the directories around, unless it is their file that is asked about. -/
def Sees (l : Layers) (fs : FileSystem) (cs : List Component) (c : Cache) : Prop :=
  ∀ ds, ds ≠ [] → ds <+: cs.dropLast →
    c.Current fs (along l.root ds) ∨ cs = ds ++ [.name ignoreFileName]

theorem sees_nil (l : Layers) (fs : FileSystem) (cs : List Component) : l.Sees fs cs [] :=
  fun ds _ _ => .inl (Cache.current_nil fs (along l.root ds))

theorem relative?_of_components (hroot : l.root.components ≠ [])
    (h : p.components = l.root.components ++ cs) :
    ∃ q, l.relative? p = some q ∧ q.components = cs ∧ q.lead = none := by
  obtain ⟨q, hq, hcs⟩ := Path.stripPrefix?_of_components hroot h
  exact ⟨q, by rw [relative?, hq], hcs, Path.lead_of_stripPrefix? hq hroot⟩

theorem below_of_lead_none (h : q.lead = none) : Below q.components := by
  rw [Path.components_eq, h]
  exact below_segmentComponents q.bytes

theorem current_isIgnored (hroot : l.root.components ≠ []) (hp : p.isAbsolute)
    (h : c.Current fs (along l.root ds)) (hds : Below ds) :
    (l.isIgnored fs p c).2.Current fs (along l.root ds) := by
  cases hq : l.relative? p with
  | none =>
    rw [isIgnored, hq]
    exact h
  | some q =>
    have hlead : q.lead = none := by
      rw [relative?] at hq
      split at hq
      next r hr =>
        cases hq
        exact Path.lead_of_stripPrefix? hr hroot
      · simp [hp] at hq
    rw [isIgnored_eq hq]
    have hway : Below ([] ++ q.components) := below_of_lead_none hlead
    exact current_descend (current_refresh h l q) hds hway

theorem current_isIgnored_of_file (hroot : l.root.components ≠ [])
    (h : p.components = l.root.components ++ (cs ++ [.name ignoreFileName])) :
    (l.isIgnored fs p c).2.Current fs (along l.root cs) := by
  obtain ⟨q, hq, hcs, hlead⟩ := relative?_of_components hroot h
  have hway : Below ([] ++ q.components) := below_of_lead_none hlead
  rw [isIgnored_eq hq]
  exact current_descend (current_refresh_of_file hlead hcs) (hway.toward ⟨_, hcs.symm⟩) hway

theorem Sees.isIgnored_eq (hroot : l.root.components ≠ [])
    (hp : p.components = l.root.components ++ cs) (h : l.Sees fs cs c) :
    (l.isIgnored fs p c).1 = (l.isIgnored fs p []).1 := by
  obtain ⟨q, hq, hcs, hlead⟩ := relative?_of_components hroot hp
  have hsees {c : Cache} (h : l.Sees fs cs c) (ds : List Component) (hne : ds ≠ [])
      (hds : ds <+: q.components.dropLast) : (l.refresh q c).Current fs (along l.root ds) := by
    rw [hcs] at hds
    rcases h ds hne hds with hcurrent | hfile
    · exact current_refresh hcurrent l q
    · exact current_refresh_of_file hlead (hcs.trans hfile)
  rw [Layers.isIgnored_eq hq, Layers.isIgnored_eq hq]
  have hway : Below ([] ++ q.components) := below_of_lead_none hlead
  apply descend_congr hway
  exact fun ds hne hds => ⟨hsees h ds hne hds, hsees (sees_nil l fs cs) ds hne hds⟩

def SameTop (root : Path) (fs fs' : FileSystem) : Prop :=
  ∀ p ∈ [root.push ignoreFileName, root.push excludePath],
    (fs.read p).toOption = (fs'.read p).toOption

instance {root : Path} {fs fs' : FileSystem} : Decidable (SameTop root fs fs') :=
  inferInstanceAs (Decidable (∀ p ∈ _, _))

theorem readFiles_congr {fs fs' : FileSystem} {ps : List Path}
    (h : ∀ p ∈ ps, (fs.read p).toOption = (fs'.read p).toOption) :
    readFiles fs ps = readFiles fs' ps := by
  induction ps with
  | nil => rfl
  | cons p ps ih =>
    obtain ⟨hp, hps⟩ := List.forall_mem_cons.mp h
    rw [readFiles, readFiles, isFile_eq_read, isFile_eq_read, ih hps]
    cases hread : fs.read p with
    | error e =>
      rw [hread] at hp
      rw [← hp]
      rfl
    | ok content =>
      cases hread' : fs'.read p with
      | error e =>
        rw [hread, hread'] at hp
        cases hp
      | ok content' =>
        rw [hread, hread'] at hp
        cases hp
        rfl

theorem exists_rules_of_ofWorkspace {root : Path} (h : ofWorkspace fs root = .ok l) :
    ∃ rules, readFiles fs [root.push ignoreFileName, root.push excludePath] = .ok rules ∧
      l = ⟨root, .ofRules root rules⟩ := by
  rw [ofWorkspace] at h
  cases hread : readFiles fs [root.push ignoreFileName, root.push excludePath] with
  | error e =>
    rw [hread] at h
    cases h
  | ok rules =>
    rw [hread] at h
    cases h
    exact ⟨rules, rfl, rfl⟩

theorem root_of_ofWorkspace {root : Path} (h : ofWorkspace fs root = .ok l) : l.root = root := by
  obtain ⟨rules, -, rfl⟩ := exists_rules_of_ofWorkspace h
  rfl

theorem ofWorkspace_congr {root : Path} {fs fs' : FileSystem} (h : SameTop root fs fs') :
    ofWorkspace fs root = ofWorkspace fs' root := by
  rw [ofWorkspace, ofWorkspace, readFiles_congr h]

end Layers

end ChunkWatch.Ignore
