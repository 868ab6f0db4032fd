import ChunkWatch.FileSystem.Change
import ChunkWatch.Proofs.FileSystem.Canonical

namespace ChunkWatch.FileSystem

open Component (IsName)

variable {fs : FileSystem}

theorem Sound.makeDirs (h : fs.Sound) (here : Path) (ss : List Bytes)
    (k : ∀ s ∈ ss, slash ∉ s) : (fs.makeDirs here ss).Sound := by
  induction ss generalizing fs here with
  | nil => exact h
  | cons s ss ih =>
    have hss := fun t ht => k t (List.mem_cons_of_mem s ht)
    rw [FileSystem.makeDirs]
    split
    next name place hname _ _ =>
      apply ih (h.changeAt _ place) _ hss
      intro es hes
      obtain ⟨rfl, -⟩ := Component.ofSegment?_eq_name_iff.mp hname
      exact hes.put ⟨k s List.mem_cons_self, hname⟩ trivial
    · exact ih h _ hss

theorem Sound.makeDir (h : fs.Sound) (p : Path) : (fs.makeDir p).Sound :=
  h.makeDirs _ _ fun _ hs => (mem_segments hs).2

theorem isName_of_fileName? {p : Path} {n : Bytes} (h : p.fileName? = some n) : IsName n := by
  rw [Path.fileName?] at h
  split at h
  next s hs =>
    cases h
    exact Path.isName_of_mem (List.mem_of_getLast? hs)
  · cases h

theorem Sound.around (h : fs.Sound) (p : Path) :
    (fs.around p).1.Sound ∧ ∀ x, (fs.around p).2 = some x → IsName x.2 := by
  rw [FileSystem.around]
  split
  next hname =>
    refine ⟨h.makeDir _, fun x hx => ?_⟩
    obtain ⟨place, -, rfl⟩ := Option.map_eq_some_iff.mp hx
    exact isName_of_fileName? hname
  · exact ⟨h, nofun⟩

theorem Sound.putAt {e : Entry} (h : fs.Sound) (p : Path) (he : e.Sound) :
    (fs.putAt p e).Sound := by
  obtain ⟨haround, hname⟩ := h.around p
  rw [FileSystem.putAt]
  split
  next fs' place name heq =>
    rw [heq] at haround hname
    exact haround.changeAt (fun es hes => hes.put (hname _ rfl) he) place
  next fs' heq =>
    rw [heq] at haround
    exact haround

theorem Sound.write (h : fs.Sound) (p : Path) (content : Bytes) : (fs.write p content).Sound := by
  have hfile : (Entry.file content).Sound := trivial
  rw [FileSystem.write]
  split
  next place hplace =>
    split
    next name hname =>
      have hvalid := isName_of_resolve h.cwd hplace name (List.mem_of_getLast? hname)
      exact h.changeAt (fun es hes => hes.put hvalid hfile) _
    · exact h
  · split
    · exact h.putAt _ hfile
    · exact h.putAt _ hfile

theorem Sound.remove (h : fs.Sound) (p : Path) : (fs.remove p).Sound := by
  rw [FileSystem.remove]
  split
  · split
    · exact h.changeAt (fun es hes => hes.erase) _
    · exact h
  · exact h

theorem Sound.rename (h : fs.Sound) (source target : Path) : (fs.rename source target).Sound := by
  rw [FileSystem.rename]
  split
  next e he =>
    obtain ⟨place, -, hplace⟩ := entry?_iff.mp he
    exact (h.remove source).putAt target (h.at? hplace)
  · exact h

theorem Sound.apply (h : fs.Sound) (base : Path) (change : Change) :
    (fs.apply base change).Sound := by
  cases change with
  | write p content => exact h.write _ content
  | mkdir p => exact h.makeDir _
  | link p target => exact h.putAt _ trivial
  | remove p => exact h.remove _
  | rename p q => exact h.rename _ _

end ChunkWatch.FileSystem
