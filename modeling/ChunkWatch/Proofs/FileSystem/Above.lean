import ChunkWatch.Ignore.Layers
import ChunkWatch.Proofs.FileSystem.Resolve
import ChunkWatch.Proofs.Path.Strip

namespace ChunkWatch.FileSystem

open Ignore.Layers (componentPath)

variable {fs : FileSystem} {links : Nat} {here place : Place} {ss rs ts : List Bytes}

theorem Leads.split (h : fs.Leads true links here ss place) (k : ss = rs ++ ts) :
    ∃ mid, fs.Leads true links here rs mid ∧
      (mid = place ∨ ∃ es, fs.at? mid = some (.dir es)) := by
  induction h generalizing rs with
  | done =>
    obtain ⟨rfl, -⟩ := List.append_eq_nil_iff.mp k.symm
    exact ⟨_, .done, .inl rfl⟩
  | dot hdir _ ih =>
    cases rs with
    | nil => exact ⟨_, .done, .inr ⟨_, hdir⟩⟩
    | cons r rs =>
      obtain ⟨rfl, hrest⟩ := List.cons.inj k
      obtain ⟨mid, hmid, hlast⟩ := ih hrest
      exact ⟨mid, .dot hdir hmid, hlast⟩
  | parent hdir _ ih =>
    cases rs with
    | nil => exact ⟨_, .done, .inr ⟨_, hdir⟩⟩
    | cons r rs =>
      obtain ⟨rfl, hrest⟩ := List.cons.inj k
      obtain ⟨mid, hmid, hlast⟩ := ih hrest
      exact ⟨mid, .parent hdir hmid, hlast⟩
  | last _ _ _ _ hfollow => cases hfollow
  | link hdir hdot hparent hlink _ _ ih =>
    cases rs with
    | nil => exact ⟨_, .done, .inr ⟨_, hdir⟩⟩
    | cons r rs =>
      obtain ⟨rfl, rfl⟩ := List.cons.inj k
      obtain ⟨mid, hmid, hlast⟩ := ih (List.append_assoc _ rs ts).symm
      exact ⟨mid, .link hdir hdot hparent hlink (.inr rfl) hmid, hlast⟩
  | enter hdir hdot hparent hentry hno _ ih =>
    cases rs with
    | nil => exact ⟨_, .done, .inr ⟨_, hdir⟩⟩
    | cons r rs =>
      obtain ⟨rfl, hrest⟩ := List.cons.inj k
      obtain ⟨mid, hmid, hlast⟩ := ih hrest
      exact ⟨mid, .enter hdir hdot hparent hentry hno hmid, hlast⟩

/-- Dots may stand before a segment, since it is looked for in a directory. -/
theorem Leads.redot_cons {s : Bytes} {es : Entries} (hdir : fs.at? here = some (.dir es))
    (k : Undotted rs (s :: ts))
    (h : ∀ us, Undotted us ts → fs.Leads true links here (s :: us) place) :
    fs.Leads true links here rs place := by
  generalize hss : s :: ts = ss at k
  induction k with
  | nil => cases hss
  | keep k _ =>
    cases hss
    exact h _ k
  | drop _ ih => exact .dot hdir (ih hss)

theorem Leads.redot_nil {es : Entries} (hdir : fs.at? here = some (.dir es))
    (k : Undotted rs []) : fs.Leads true links here rs here := by
  generalize hss : ([] : List Bytes) = ss at k
  induction k with
  | nil => exact .done
  | keep => cases hss
  | drop _ ih => exact .dot hdir (ih hss)

theorem Leads.redot {es : Entries} (h : fs.Leads true links here ss place) (k : Undotted rs ss)
    (hdir : fs.at? place = some (.dir es)) : fs.Leads true links here rs place := by
  induction h generalizing rs with
  | done => exact .redot_nil hdir k
  | dot hd _ ih => exact .redot_cons hd k fun us hus => .dot hd (ih hus hdir)
  | parent hd _ ih => exact .redot_cons hd k fun us hus => .parent hd (ih hus hdir)
  | last _ _ _ _ hfollow => cases hfollow
  | link hd hdot hparent hlink _ _ ih =>
    exact .redot_cons hd k fun us hus =>
      .link hd hdot hparent hlink (.inr rfl) (ih (hus.append _) hdir)
  | enter hd hdot hparent hentry hno _ ih =>
    exact .redot_cons hd k fun us hus => .enter hd hdot hparent hentry hno (ih hus hdir)

theorem filter_names (s : Bytes) : (names s).filter (· ≠ [ChunkWatch.dot])
    = (Path.segmentComponents s).map componentPath := by
  rw [names, Path.segmentComponents]
  induction s.splitOn slash with
  | nil => rfl
  | cons s ss ih =>
    by_cases hnil : s = []
    · simpa [hnil, Component.ofSegment?_nil] using ih
    · by_cases hdot : s = [ChunkWatch.dot]
      · simpa [hdot, Component.ofSegment?_dot] using ih
      · by_cases hparent : s = [ChunkWatch.dot, ChunkWatch.dot]
        · simpa [hparent, Component.ofSegment?_parent, componentPath] using ih
        · have hname := Component.ofSegment?_eq_name_iff.mpr ⟨rfl, hnil, hdot, hparent⟩
          simpa [hnil, hdot, hname, componentPath] using ih

theorem undotted_components (s : Bytes) :
    Undotted (segments s) ((Path.segmentComponents s).map componentPath) := by
  have hfilter : (segments s).filter (· ≠ [ChunkWatch.dot])
      = (names s).filter (· ≠ [ChunkWatch.dot]) := by
    rw [segments, names, List.filter_append]
    split <;> simp
  rw [← filter_names, ← hfilter]
  exact undotted_filter _

theorem isDir_of_startsWith {d p : Path} (h : fs.isDir d) (k : d.startsWith p)
    (hne : p.bytes ≠ []) : fs.isDir p := by
  obtain ⟨es, hes⟩ := isDir_iff.mp h
  obtain ⟨place, hplace, hdir⟩ := entry?_iff.mp hes
  obtain ⟨-, hleads⟩ := resolve_iff.mp hplace
  obtain ⟨hlead, rest, hrest⟩ := Path.lead_eq_of_startsWith k hne
  have habs : p.isAbsolute = d.isAbsolute := Path.isAbsolute_congr hlead
  have hplain := hleads.undot (undotted_components d.bytes)
  rw [← hrest, List.map_append] at hplain
  obtain ⟨mid, hmid, hlast⟩ := hplain.split rfl
  obtain ⟨ds, hds⟩ : ∃ ds, fs.at? mid = some (.dir ds) := by
    rcases hlast with rfl | hlast
    · exact ⟨es, hdir⟩
    · exact hlast
  have hdotted := hmid.redot (undotted_components p.bytes) hds
  rw [← habs] at hdotted
  exact isDir_iff.mpr ⟨ds, entry?_iff.mpr ⟨mid, resolve_iff.mpr ⟨hne, hdotted⟩, hds⟩⟩

theorem entry?_congr {p q : Path} {es : Entries} (h : p.same q)
    (hes : fs.entry? true p = .ok (.dir es)) : fs.entry? true q = .ok (.dir es) := by
  obtain ⟨place, hplace, hdir⟩ := entry?_iff.mp hes
  obtain ⟨hne, hleads⟩ := resolve_iff.mp hplace
  obtain ⟨hlead, hsegments⟩ := Path.lead_eq_of_components (Path.same_iff.mp h)
  have habs : p.isAbsolute = q.isAbsolute := Path.isAbsolute_congr hlead
  have hq : q.bytes ≠ [] := by
    intro hnil
    apply Path.components_ne_nil hne
    obtain ⟨bytes⟩ := q
    cases hnil
    exact Path.same_iff.mp h
  have hplain := hleads.undot (undotted_components p.bytes)
  rw [hsegments] at hplain
  have hdotted := hplain.redot (undotted_components q.bytes) hdir
  rw [habs] at hdotted
  exact entry?_iff.mpr ⟨place, resolve_iff.mpr ⟨hq, hdotted⟩, hdir⟩

theorem isDir_congr {p q : Path} (h : p.same q) : fs.isDir p = fs.isDir q := by
  rw [Bool.eq_iff_iff, isDir_iff, isDir_iff]
  exact exists_congr fun es => ⟨entry?_congr h, entry?_congr (Path.same_symm h)⟩

/-- There is nothing at a path, however it is spelled. -/
def Gone (fs : FileSystem) (d : Path) : Prop :=
  ∀ p : Path, p.same d → ∀ e, fs.entry? false p ≠ .ok e

theorem Gone.entry? {d p : Path} (h : fs.Gone d) (k : p.same d)
    (e : Entry) : FileSystem.entry? fs true p ≠ .ok e := by
  intro he
  obtain ⟨f, hf⟩ := entry?_unfollow he
  exact h p k f hf

theorem Gone.isDir {d p : Path} (h : fs.Gone d) (k : p.same d) :
    fs.isDir p = false := by
  rw [Bool.eq_false_iff]
  intro hdir
  obtain ⟨es, hes⟩ := isDir_iff.mp hdir
  exact Gone.entry? h k _ hes

theorem Gone.exists? {d p : Path} (h : fs.Gone d) (k : p.same d) :
    fs.exists? p = false := by
  rw [FileSystem.exists?]
  cases hp : FileSystem.entry? fs true p with
  | error e => rfl
  | ok e => exact absurd hp (Gone.entry? h k e)

theorem gone_of_dotless {d : Path} (hne : d.bytes ≠ [])
    (hdotless : segments d.bytes = (names d.bytes).filter (· ≠ [ChunkWatch.dot]))
    (h : (fs.entry? false d).toBool = false) : fs.Gone d := by
  intro p hsame e he
  obtain ⟨place, hplace, hentry⟩ := entry?_iff.mp he
  obtain ⟨-, hleads⟩ := resolve_iff.mp hplace
  obtain ⟨hlead, hsegments⟩ := Path.lead_eq_of_components (Path.same_iff.mp hsame)
  have habs : p.isAbsolute = d.isAbsolute := by
    rw [Bool.eq_iff_iff, Path.isAbsolute_iff_lead, Path.isAbsolute_iff_lead, hlead]
  have hundotted : Undotted (segments p.bytes) (segments d.bytes) := by
    rw [hdotless, filter_names, ← hsegments]
    exact undotted_components p.bytes
  obtain ⟨last, f, hlast, hf⟩ := hleads.undot_some hundotted hentry
  rw [habs] at hlast
  rw [entry?_iff.mpr ⟨last, resolve_iff.mpr ⟨hne, hlast⟩, hf⟩] at h
  cases h

end ChunkWatch.FileSystem
