import ChunkWatch.Proofs.FileSystem.Resolve
import ChunkWatch.Proofs.Path.Strip

namespace ChunkWatch

open Bytes (join)
open Component (IsName ofSegment?)

namespace FileSystem

variable {fs : FileSystem} {follow : Bool} {links : Nat} {here place : Place}
  {ns ms ss : List Bytes} {n : Bytes} {p q : Path}

theorem pathOf_eq_pushAll (h : ∀ n ∈ ns, IsName n) : pathOf ns = Path.pushAll ⟨[slash]⟩ ns := by
  by_cases hne : ns = []
  · rw [hne]
    rfl
  · rw [← Path.join_pushAll_empty _ hne h, Path.pushAll_empty h, Path.join, Path.isAbsolute_names h]
    rfl

theorem components_pathOf (h : ∀ n ∈ ns, IsName n) :
    (pathOf ns).components = .root :: ns.map .name := by
  rw [pathOf_eq_pushAll h, Path.components_pushAll h]
  rfl

theorem components_pathOf_ne_nil (h : ∀ n ∈ ns, IsName n) : (pathOf ns).components ≠ [] := by
  rw [components_pathOf h]
  exact List.cons_ne_nil _ _

theorem pathOf_append (hns : ∀ n ∈ ns, IsName n) (hms : ∀ m ∈ ms, IsName m) :
    pathOf (ns ++ ms) = (pathOf ns).pushAll ms := by
  rw [pathOf_eq_pushAll hns, ← Path.pushAll_append]
  exact pathOf_eq_pushAll (List.forall_mem_append.mpr ⟨hns, hms⟩)

theorem join_pathOf (hns : ∀ n ∈ ns, IsName n) (hms : ∀ m ∈ ms, IsName m) (hne : ms ≠ []) :
    (pathOf ns).join ⟨join slash ms⟩ = pathOf (ns ++ ms) := by
  rw [pathOf_append hns hms, ← Path.pushAll_empty hms, Path.join_pushAll_empty _ hne hms]

theorem lead_pathOf (ns : List Bytes) : (pathOf ns).lead = some .root := Path.lead_slash _

theorem body_pathOf (h : ∀ n ∈ ns, IsName n) (hne : ns ≠ []) : (pathOf ns).body = ns := by
  have hsplit := Bytes.splitOn_append slash [] (join slash ns)
  rw [Bytes.splitOn_join (fun n hn => (h n hn).1) hne] at hsplit
  rw [Path.body, lead_pathOf]
  exact congrArg List.tail hsplit

theorem startsWith_pathOf (hns : ∀ n ∈ ns, IsName n) (hms : ∀ m ∈ ms, IsName m) :
    (pathOf ms).startsWith (pathOf ns) ↔ ns <+: ms := by
  rw [Path.startsWith_iff, components_pathOf hns, components_pathOf hms, List.cons_prefix_cons,
    List.prefix_map_iff_of_injective fun _ _ => Component.name.inj]
  simp

theorem eq_of_components (hms : ∀ m ∈ ms, IsName m)
    (h : (pathOf ms).components = .root :: ss.map .name) : ms = ss := by
  rw [components_pathOf hms] at h
  exact Component.names_injective (List.cons.inj h).2

theorem eq_append_of_components (hns : ∀ n ∈ ns, IsName n) (hms : ∀ m ∈ ms, IsName m)
    (h : (pathOf ms).components = (pathOf ns).components ++ ss.map .name) : ms = ns ++ ss := by
  apply eq_of_components hms
  rw [h, components_pathOf hns, List.map_append]
  rfl

theorem stripPrefix?_pathOf (hns : ∀ n ∈ ns, IsName n) (hms : ∀ m ∈ ms, IsName m) :
    (pathOf (ns ++ ms)).stripPrefix? (pathOf ns) = some ⟨join slash ms⟩ := by
  have hnames := List.forall_mem_append.mpr ⟨hns, hms⟩
  by_cases hne : ns ++ ms = []
  · obtain ⟨rfl, rfl⟩ := List.append_eq_nil_iff.mp hne
    decide
  · have hstarts := (startsWith_pathOf hns hnames).mpr (List.prefix_append ns ms)
    have hdropped : Path.trimStart (Path.dropNames ns.length (ns ++ ms)) = ms := by
      rw [Path.trimStart_dropNames (by rw [Path.filterMap_names hns, List.length_map]),
        Path.trimStart_names hms]
    rw [Path.stripPrefix?, if_neg (components_pathOf_ne_nil hns), if_pos hstarts,
      components_pathOf hns, lead_pathOf, body_pathOf hnames hne]
    simp [hdropped, Path.trimEnd_names hms]

theorem stripPrefix?_pathOf_eq_none (hns : ∀ n ∈ ns, IsName n) (h : ¬p.startsWith (pathOf ns)) :
    p.stripPrefix? (pathOf ns) = none := by
  rwa [← Path.stripPrefix?_isSome_iff (components_pathOf_ne_nil hns),
    Option.not_isSome_iff_eq_none] at h

theorem parent?_pathOf (hns : ∀ n ∈ ns, IsName n) (hn : IsName n) :
    (pathOf (ns ++ [n])).parent? = some (pathOf ns) := by
  have hnames : ∀ m ∈ ns ++ [n], IsName m :=
    List.forall_mem_append.mpr ⟨hns, List.forall_mem_singleton.mpr hn⟩
  rw [Path.parent?, lead_pathOf, body_pathOf hnames (by simp), Path.trimEnd_names hnames]
  simp [Path.trimEnd_names hns, Path.respell, pathOf]

theorem fileName?_pathOf (hns : ∀ n ∈ ns, IsName n) (hn : IsName n) :
    (pathOf (ns ++ [n])).fileName? = some n := by
  rw [Path.fileName?, components_pathOf
    (List.forall_mem_append.mpr ⟨hns, List.forall_mem_singleton.mpr hn⟩), List.map_append,
    List.map_singleton, ← List.cons_append, List.getLast?_concat]

theorem mem_segments {s t : Bytes} (h : t ∈ segments s) : t ≠ [] ∧ slash ∉ t := by
  rcases List.mem_append.mp h with h | h
  · obtain ⟨hmem, hne⟩ := List.mem_filter.mp h
    exact ⟨of_decide_eq_true hne, Bytes.not_mem_of_mem_splitOn hmem⟩
  · split at h
    · rw [List.mem_singleton.mp h]
      decide
    · cases h

theorem segments_ne_nil (h : p.bytes ≠ []) (k : p.isAbsolute = false) : segments p.bytes ≠ [] := by
  obtain ⟨bytes⟩ := p
  obtain ⟨b, s, rfl⟩ := List.exists_cons_of_ne_nil h
  have hb : b ≠ slash := by simpa [Path.isAbsolute] using k
  obtain ⟨w, ws, hsplit⟩ := Bytes.splitOn_cons_of_ne hb s
  simp [segments, hsplit]

theorem Leads.isName (h : fs.Leads follow links here ss place)
    (hss : ∀ s ∈ ss, s ≠ [] ∧ slash ∉ s) (k : ∀ n ∈ here, IsName n) : ∀ n ∈ place, IsName n := by
  have step {here : Place} {s : Bytes} {ss : List Bytes}
      (hss : ∀ t ∈ s :: ss, t ≠ [] ∧ slash ∉ t) (hdot : s ≠ [ChunkWatch.dot])
      (hparent : s ≠ [ChunkWatch.dot, ChunkWatch.dot]) (k : ∀ n ∈ here, IsName n) :
      ∀ m ∈ here ++ [s], IsName m := by
    obtain ⟨hne, hslash⟩ := hss s List.mem_cons_self
    have hs : IsName s := ⟨hslash, Component.ofSegment?_eq_name_iff.mpr ⟨rfl, hne, hdot, hparent⟩⟩
    exact List.forall_mem_append.mpr ⟨k, List.forall_mem_singleton.mpr hs⟩
  induction h with
  | done => exact k
  | dot _ _ ih => exact ih (fun s hs => hss s (List.mem_cons_of_mem _ hs)) k
  | parent _ _ ih =>
    exact ih (fun s hs => hss s (List.mem_cons_of_mem _ hs))
      fun n hn => k n ((List.dropLast_sublist _).subset hn)
  | last _ hdot hparent _ _ => exact step hss hdot hparent k
  | link _ _ _ _ _ _ ih =>
    apply ih
    · exact List.forall_mem_append.mpr
        ⟨fun s => mem_segments, fun s hs => hss s (List.mem_cons_of_mem _ hs)⟩
    · split
      · simp
      · exact k
  | enter _ hdot hparent _ _ _ ih =>
    exact ih (fun s hs => hss s (List.mem_cons_of_mem _ hs)) (step hss hdot hparent k)

theorem isName_of_resolve (hcwd : ∀ n ∈ fs.cwd, IsName n)
    (h : fs.resolve follow p = .ok place) : ∀ n ∈ place, IsName n := by
  apply (resolve_iff.mp h).2.isName fun s => mem_segments
  split
  · simp
  · exact hcwd

def IsReal (fs : FileSystem) (place : Place) : Prop :=
  ∃ e, fs.at? place = some e ∧ ∀ target, e ≠ .link target

theorem isReal_of_isDir {es : Entries} (h : fs.at? place = some (.dir es)) : fs.IsReal place :=
  ⟨_, h, nofun⟩

theorem isReal_top (fs : FileSystem) : fs.IsReal [] := ⟨.dir fs.top, rfl, nofun⟩

theorem exists_dir_of_concat {e : Entry} (h : fs.at? (ns ++ [n]) = some e) :
    ∃ es, fs.at? ns = some (.dir es) ∧ es.get? n = some e := by
  obtain heq | ⟨es, hes⟩ := Entry.at?_of_prefix h (List.prefix_append ns [n])
  · simp at heq
  · exact ⟨es, hes, (at?_concat hes n).symm.trans h⟩

theorem Leads.isReal (h : fs.Leads true links here ss place) (k : ss = [] → fs.IsReal here) :
    fs.IsReal place := by
  induction h with
  | done => exact k rfl
  | dot hdir _ ih => exact ih fun _ => isReal_of_isDir hdir
  | @parent here _ _ _ _ hdir _ ih =>
    refine ih fun _ => ?_
    cases here using List.reverseRecOn with
    | nil => exact fs.isReal_top
    | append_singleton ns n =>
      obtain ⟨es, hes, -⟩ := exists_dir_of_concat hdir
      rw [List.dropLast_concat]
      exact isReal_of_isDir hes
  | last _ _ _ _ hfollow => cases hfollow
  | link hdir _ _ _ _ _ ih =>
    refine ih fun _ => ?_
    split
    · exact fs.isReal_top
    · exact isReal_of_isDir hdir
  | enter hdir _ _ hentry hno _ ih => exact ih fun _ => ⟨_, (at?_concat hdir _).trans hentry, hno⟩

theorem isReal_of_resolve (h : fs.resolve true p = .ok place) : fs.IsReal place := by
  obtain ⟨hne, hleads⟩ := resolve_iff.mp h
  apply hleads.isReal
  intro hnil
  split
  · exact fs.isReal_top
  next habs => exact absurd hnil (segments_ne_nil hne (Bool.eq_false_iff.mpr habs))

theorem resolve_pathOf (h : fs.IsReal ns) (hns : ∀ n ∈ ns, IsName n) :
    fs.resolve true (pathOf ns) = .ok ns := by
  induction ns using List.reverseRecOn with
  | nil => rfl
  | append_singleton ns n ih =>
    obtain ⟨e, he, hno⟩ := h
    obtain ⟨es, hes, hget⟩ := exists_dir_of_concat he
    obtain ⟨hns, hn⟩ := List.forall_mem_append.mp hns
    rw [pathOf_append hns hn]
    exact resolve_push (hn n (List.mem_singleton_self n)) (ih (isReal_of_isDir hes) hns) hes hget
      fun target ht => absurd ht (hno target)

theorem canonicalize_iff : fs.canonicalize p = .ok q ↔
    ∃ place, fs.resolve true p = .ok place ∧ q = pathOf place := by
  rw [canonicalize]
  cases fs.resolve true p with
  | error reason => simp [Except.map]
  | ok place => simp [Except.map, eq_comm]

theorem resolve_canonicalize (hcwd : ∀ n ∈ fs.cwd, IsName n) (h : fs.canonicalize p = .ok q) :
    fs.resolve true q = fs.resolve true p := by
  obtain ⟨place, hplace, rfl⟩ := canonicalize_iff.mp h
  rw [hplace]
  exact resolve_pathOf (isReal_of_resolve hplace) (isName_of_resolve hcwd hplace)

theorem readText_canonicalize (hcwd : ∀ n ∈ fs.cwd, IsName n) (h : fs.canonicalize p = .ok q) :
    fs.readText q = fs.readText p := by
  rw [readText, readText, read, read, entry?, entry?, resolve_canonicalize hcwd h]

end FileSystem

end ChunkWatch
