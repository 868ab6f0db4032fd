import Mathlib.Data.List.Lex
import ChunkWatch.FileSystem.Basic
import ChunkWatch.Proofs.Path.Spelling

namespace ChunkWatch

open Component (IsName)

@[elab_as_elim, induction_eliminator]
theorem Entries.induction {motive : Entries → Prop} (nil : motive .nil)
    (cons : ∀ n e es, motive es → motive (.cons n e es)) : ∀ es, motive es
  | .nil => nil
  | .cons n e es => cons n e es (Entries.induction nil cons es)

theorem Entry.induction_with_entries {P : Entry → Prop} {Q : Entries → Prop}
    (file : ∀ s, P (.file s)) (link : ∀ s, P (.link s)) (dir : ∀ es, Q es → P (.dir es))
    (nil : Q .nil) (cons : ∀ n e es, P e → Q es → Q (.cons n e es)) : (∀ e, P e) ∧ ∀ es, Q es :=
  ⟨@Entry.rec P Q file link dir nil cons, @Entries.rec P Q file link dir nil cons⟩

def Entries.toList : Entries → List (Bytes × Entry)
  | nil => []
  | cons n e es => (n, e) :: es.toList

mutual

def Entry.Sound : Entry → Prop
  | .file _ => True
  | .link _ => True
  | .dir es => es.Sound

def Entries.Sound : Entries → Prop
  | .nil => True
  | .cons n e es =>
    IsName n ∧ (∀ x ∈ es.toList, n.map UInt8.toNat < x.1.map UInt8.toNat) ∧ e.Sound ∧ es.Sound

end

theorem toNat_injective : Function.Injective (List.map UInt8.toNat) :=
  List.map_injective_iff.mpr fun _ _ => UInt8.toNat_inj.mp

namespace Entries

variable {n m : Bytes} {e f : Entry} {es : Entries}

theorem mem_of_mem_put {x : Bytes × Entry} (h : x ∈ (es.put n e).toList) :
    x = (n, e) ∨ x ∈ es.toList := by
  induction es with
  | nil => simpa [put, toList] using h
  | cons m f es ih =>
    rw [put] at h
    split at h
    next hm =>
      rw [← hm]
      exact (List.mem_cons.mp h).imp_right (List.mem_cons_of_mem _)
    · split at h
      · exact List.mem_cons.mp h
      · rcases List.mem_cons.mp h with h | h
        · exact .inr (h ▸ List.mem_cons_self)
        · exact (ih h).imp_right (List.mem_cons_of_mem _)

theorem mem_of_mem_erase {x : Bytes × Entry} (h : x ∈ (es.erase n).toList) : x ∈ es.toList := by
  induction es with
  | nil => exact h
  | cons m f es ih =>
    rw [erase] at h
    split at h
    · exact List.mem_cons_of_mem _ h
    · rcases List.mem_cons.mp h with h | h
      · exact h ▸ List.mem_cons_self
      · exact List.mem_cons_of_mem _ (ih h)

theorem mem_of_get? (h : es.get? n = some e) : (n, e) ∈ es.toList := by
  induction es with
  | nil => cases h
  | cons m f es ih =>
    rw [get?] at h
    split at h
    next hm =>
      cases h
      rw [← hm]
      exact List.mem_cons_self
    · exact List.mem_cons_of_mem _ (ih h)

theorem Sound.isName (h : es.Sound) (k : (n, e) ∈ es.toList) : IsName n := by
  induction es with
  | nil => cases k
  | cons m f es ih =>
    rw [Sound] at h
    rcases List.mem_cons.mp k with k | k
    · cases k
      exact h.1
    · exact ih h.2.2.2 k

theorem Sound.entry (h : es.Sound) (k : (n, e) ∈ es.toList) : e.Sound := by
  induction es with
  | nil => cases k
  | cons m f es ih =>
    rw [Sound] at h
    rcases List.mem_cons.mp k with k | k
    · cases k
      exact h.2.2.1
    · exact ih h.2.2.2 k

theorem Sound.get? (h : es.Sound) (k : (n, e) ∈ es.toList) : es.get? n = some e := by
  induction es with
  | nil => cases k
  | cons m f es ih =>
    rw [Sound] at h
    rcases List.mem_cons.mp k with k | k
    · cases k
      rw [Entries.get?, if_pos rfl]
    · have hne : m ≠ n := by
        rintro rfl
        exact lt_irrefl _ (h.2.1 _ k)
      rw [Entries.get?, if_neg hne]
      exact ih h.2.2.2 k

theorem Sound.put (h : es.Sound) (hn : IsName n) (he : e.Sound) : (es.put n e).Sound := by
  induction es with
  | nil => exact ⟨hn, by simp [toList], he, trivial⟩
  | cons m f es ih =>
    rw [Sound] at h
    obtain ⟨hm, hafter, hf, hes⟩ := h
    rw [Entries.put]
    split
    next heq =>
      subst heq
      exact ⟨hn, hafter, he, hes⟩
    next hne =>
      split
      next hlt =>
        refine ⟨hn, fun x hx => ?_, he, hm, hafter, hf, hes⟩
        rcases List.mem_cons.mp hx with rfl | hx
        · exact hlt
        · exact lt_trans hlt (hafter x hx)
      next hlt =>
        refine ⟨hm, fun x hx => ?_, hf, ih hes⟩
        rcases mem_of_mem_put hx with rfl | hx
        · exact lt_of_le_of_ne (not_lt.mp hlt) fun heq => hne (toNat_injective heq)
        · exact hafter x hx

theorem Sound.erase (h : es.Sound) : (es.erase n).Sound := by
  induction es with
  | nil => exact h
  | cons m f es ih =>
    rw [Sound] at h
    obtain ⟨hm, hafter, hf, hes⟩ := h
    rw [Entries.erase]
    split
    · exact hes
    · exact ⟨hm, fun x hx => hafter x (mem_of_mem_erase hx), hf, ih hes⟩

end Entries

namespace Entry

variable {e f : Entry}

theorem at?_append (e : Entry) (p q : Place) : e.at? (p ++ q) = (e.at? p).bind (at? q) := by
  induction p generalizing e with
  | nil => rfl
  | cons n p ih =>
    cases e with
    | dir es =>
      rw [List.cons_append, at?, at?, Option.bind_assoc]
      congr 1
      funext e
      exact ih e
    | file s => rfl
    | link s => rfl

theorem at?_of_prefix {ns dir : Place} (h : e.at? ns = some f)
    (k : dir <+: ns) : dir = ns ∨ ∃ es, e.at? dir = some (.dir es) := by
  obtain ⟨rest, rfl⟩ := k
  rw [at?_append] at h
  obtain ⟨g, hg, h⟩ := Option.bind_eq_some_iff.mp h
  cases rest with
  | nil => exact .inl (List.append_nil dir).symm
  | cons n rest =>
    cases g with
    | dir es => exact .inr ⟨es, hg⟩
    | file s => cases h
    | link s => cases h

theorem Sound.at? {p : Place} (h : e.Sound) (k : e.at? p = some f) : f.Sound := by
  induction p generalizing e with
  | nil =>
    cases k
    exact h
  | cons n p ih =>
    cases e with
    | dir es =>
      obtain ⟨g, hg, hf⟩ := Option.bind_eq_some_iff.mp k
      rw [Sound] at h
      exact ih (h.entry (Entries.mem_of_get? hg)) hf
    | file s => cases k
    | link s => cases k

theorem Sound.changeAt {change : Entries → Entries} {p : Place} (h : e.Sound)
    (k : ∀ es : Entries, es.Sound → (change es).Sound) : (e.changeAt change p).Sound := by
  induction p generalizing e with
  | nil =>
    cases e with
    | dir es => exact k es h
    | file s => exact h
    | link s => exact h
  | cons n p ih =>
    cases e with
    | dir es =>
      rw [Entry.changeAt]
      split
      next g hg =>
        rw [Sound] at h
        have hmem := Entries.mem_of_get? hg
        exact h.put (h.isName hmem) (ih (h.entry hmem))
      · exact h
    | file s => exact h
    | link s => exact h

end Entry

structure FileSystem.Sound (fs : FileSystem) : Prop where
  top : fs.top.Sound
  cwd : ∀ n ∈ fs.cwd, IsName n

namespace FileSystem

variable {fs : FileSystem} {p : Place} {n : Bytes} {e : Entry} {es : Entries}

theorem at?_concat (h : fs.at? p = some (.dir es)) (n : Bytes) :
    fs.at? (p ++ [n]) = es.get? n := by
  rw [FileSystem.at?] at h ⊢
  rw [Entry.at?_append, h, Option.bind_some]
  simp [Entry.at?]

theorem Sound.at? (h : fs.Sound) (k : fs.at? p = some e) : e.Sound := by
  have hdir : (Entry.dir fs.top).Sound := h.top
  exact hdir.at? k

theorem Sound.entries (h : fs.Sound) (k : fs.at? p = some (.dir es)) : es.Sound := h.at? k

theorem Sound.changeAt {change : Entries → Entries} (h : fs.Sound)
    (k : ∀ es : Entries, es.Sound → (change es).Sound) (p : Place) :
    (fs.changeAt change p).Sound := by
  have hdir : (Entry.dir fs.top).Sound := h.top
  have hchanged := hdir.changeAt (p := p) k
  rw [FileSystem.changeAt]
  split
  next es hes =>
    rw [hes] at hchanged
    exact ⟨hchanged, h.cwd⟩
  · exact h

end FileSystem

mutual

def Entry.Linkless : Entry → Prop
  | .file _ => True
  | .link _ => False
  | .dir es => es.Linkless

def Entries.Linkless : Entries → Prop
  | .nil => True
  | .cons _ e es => e.Linkless ∧ es.Linkless

end

theorem Entries.Linkless.get? {es : Entries} {n : Bytes} {e : Entry} (h : es.Linkless)
    (k : es.get? n = some e) : e.Linkless := by
  induction es with
  | nil => cases k
  | cons m f es ih =>
    rw [Linkless] at h
    rw [Entries.get?] at k
    split at k
    · cases k
      exact h.1
    · exact ih h.2 k

theorem Entry.Linkless.at? {e f : Entry} {ns : Place} (h : e.Linkless) (k : e.at? ns = some f) :
    f.Linkless := by
  induction ns generalizing e with
  | nil =>
    cases k
    exact h
  | cons n ns ih =>
    cases e with
    | dir es =>
      obtain ⟨g, hg, k⟩ := Option.bind_eq_some_iff.mp k
      rw [Linkless] at h
      exact ih (h.get? hg) k
    | file s => cases k
    | link s => cases k

namespace Entry

variable {e : Entry} {ns : Place}

def under : Place → Entry → Entry
  | [], e => e
  | n :: ns, e => .dir (.cons n (under ns e) .nil)

theorem at?_under (ns : Place) (e : Entry) : (under ns e).at? ns = some e := by
  induction ns with
  | nil => rfl
  | cons n ns ih => simp [under, at?, Entries.get?, ih]

theorem Sound.under (h : e.Sound) (hns : ∀ n ∈ ns, IsName n) : (under ns e).Sound := by
  induction ns with
  | nil => exact h
  | cons n ns ih =>
    obtain ⟨hn, hns⟩ := List.forall_mem_cons.mp hns
    exact ⟨hn, nofun, ih hns, trivial⟩

end Entry

end ChunkWatch
