import ChunkWatch.Classifier
import ChunkWatch.Proofs.Glob.Shape
import ChunkWatch.Proofs.Path.Strip
import Mathlib.Data.List.Forall2

/-! What rules see of a path is its spelling.  For any two spellings of one path there is a pattern
that matches just one of them; and an absolute path is seen as it is left behind the root, without
dots and empty segments at its ends. -/

namespace ChunkWatch

namespace Glob

-- A pattern for a text: its slashes and dots as they are, and anything else for the other bytes.
def outlineText (b : UInt8) : List Char :=
  if b = slash then ['/'] else if b = dot then ['[', '.', ']'] else ['?']

def outlineLexeme (b : UInt8) : Lexeme :=
  if b = slash then .char '/' else if b = dot then .oneOf false [('.', '.')] else .char '?'

def outlineToken (b : UInt8) : Token :=
  if b = slash then .literal '/' else if b = dot then .oneOf false [('.', '.')] else .any

def outline (s : Bytes) : String := String.ofList (s.flatMap outlineText)

def Covers (b c : UInt8) : Prop :=
  if b = slash then c = slash else if b = dot then c = dot else c ≠ slash

def mark (b : UInt8) : UInt8 := if b = slash then slash else if b = dot then dot else 0

variable {lenient : Bool} {before : Option Char} {o : Open} {s t : Bytes}

theorem lexemes_dot (cs : List Char) : lexemes lenient true ('[' :: '.' :: ']' :: cs) =
    .oneOf false [('.', '.')] :: lexemes lenient true cs := by
  have hclass : classMembers true false [] (classSign ('.' :: ']' :: cs)).2 =
      .closed [('.', '.')] cs := rfl
  rw [lexemes, if_pos ⟨rfl, rfl⟩]
  · split
    next rs t h =>
      rw [hclass] at h
      cases h
      rfl
    next h => cases hclass.symm.trans h
    next h => cases hclass.symm.trans h
  · simp
  · simp

theorem lexemes_outline (s : Bytes) :
    lexemes lenient true (s.flatMap outlineText) = s.map outlineLexeme := by
  have plain (c : Char) (cs : List Char) (hc : c ≠ '\\') (hc' : c ≠ '[') :
      lexemes lenient true (c :: cs) = .char c :: lexemes lenient true cs := by
    rw [lexemes, if_neg fun h => hc' h.1]
    · exact fun h _ => hc h
    · exact fun _ _ h _ => hc h
  induction s with
  | nil =>
    rw [List.flatMap_nil, lexemes]
    rfl
  | cons b s ih =>
    rw [List.flatMap_cons, List.map_cons, ← ih, outlineText, outlineLexeme]
    split
    · exact plain '/' _ (by decide) (by decide)
    · split
      · exact lexemes_dot _
      · exact plain '?' _ (by decide) (by decide)

theorem group_outline (h : o.outer = []) (s : Bytes) :
    group before o (s.map outlineLexeme) = .ok (o.push (s.map outlineToken)).tokens.reverse := by
  induction s generalizing before o with
  | nil =>
    rw [List.map_nil, group]
    simp [Open.push, Open.inGroup, h]
  | cons b s ih =>
    have hpush : o.push (outlineToken b :: s.map outlineToken) =
        (o.push [outlineToken b]).push (s.map outlineToken) := (push_push o [_] _).symm
    rw [List.map_cons, List.map_cons, hpush, outlineLexeme, outlineToken]
    split
    · rw [group_slash]
      exact ih h
    · split
      · rw [group]
        exact ih h
      · rw [group]
        exact ih h

theorem parse_outline (s : Bytes) :
    parse lenient (outline s).toList = .ok ⟨s.map outlineToken⟩ := by
  rw [parse, outline, String.toList_ofList, lexemes_outline, group_outline rfl]
  simp [Except.map, Open.push, Open.start]

theorem inRanges_dot (c : UInt8) : inRanges [('.', '.')] c = (c == dot) := by
  have hranges : [('.', '.')].flatMap byteRanges = [(dot, dot)] := by decide
  rw [inRanges, hranges, Bool.eq_iff_iff]
  simp [UInt8.le_antisymm_iff, and_comm]

theorem accepts_outlineToken {b : UInt8} {k : Bytes → Bool} :
    (outlineToken b).accepts k t ↔ ∃ c u, t = c :: u ∧ Covers b c ∧ k u := by
  unfold outlineToken Covers
  split
  · rw [Token.accepts, Option.any_eq_true]
    constructor
    · rintro ⟨u, hu, hk⟩
      exact ⟨slash, u, Bytes.dropPrefix?_eq_some.mp hu, rfl, hk⟩
    · rintro ⟨c, u, rfl, rfl, hk⟩
      exact ⟨u, Bytes.dropPrefix?_eq_some.mpr rfl, hk⟩
  · cases t with
    | nil => split <;> simp [Token.accepts]
    | cons c t =>
      split
      · simp [Token.accepts, inRanges_dot]
      · simp [Token.accepts]

theorem allAccept_outline :
    allAccept (s.map outlineToken) List.isEmpty t ↔ List.Forall₂ Covers s t := by
  induction s generalizing t with
  | nil => rw [List.map_nil, allAccept, List.isEmpty_iff, List.forall₂_nil_left_iff]
  | cons b s ih =>
    rw [List.map_cons, allAccept, accepts_outlineToken, List.forall₂_cons_left_iff]
    constructor
    · rintro ⟨c, u, rfl, hc, hu⟩
      exact ⟨c, u, hc, ih.mp hu, rfl⟩
    · rintro ⟨c, u, hc, hu, rfl⟩
      exact ⟨c, u, rfl, hc, ih.mpr hu⟩

theorem matches_outline : Glob.matches ⟨s.map outlineToken⟩ t ↔ List.Forall₂ Covers s t := by
  have htoken (b : UInt8) : outlineToken b ≠ .deepPrefix ∧ outlineToken b ≠ .literal '.' := by
    rw [outlineToken]
    split
    · exact ⟨nofun, by simp⟩
    · split <;> exact ⟨nofun, nofun⟩
  rw [matches_eq_allAccept, allAccept_outline]
  · intro h
    obtain ⟨b, -, hb⟩ := List.mem_map.mp (h ▸ List.mem_singleton_self Token.deepPrefix)
    exact (htoken b).1 hb
  · rw [Bool.eq_false_iff, ne_eq, endsInDot_iff]
    intro h
    obtain ⟨b, -, hb⟩ := List.mem_map.mp (List.mem_of_getLast? h)
    exact (htoken b).2 hb

theorem covers_self (b : UInt8) : Covers b b := by
  unfold Covers
  split
  · assumption
  · split <;> assumption

theorem mark_eq_of_covers {b c : UInt8} (h : Covers b c) (k : Covers c b) : mark b = mark c := by
  unfold Covers at h k
  unfold mark
  split_ifs at h k ⊢ <;> simp_all

theorem map_mark_eq (h : List.Forall₂ Covers s t) (k : List.Forall₂ Covers t s) :
    s.map mark = t.map mark := by
  induction h with
  | nil => rfl
  | cons hb _ ih =>
    obtain ⟨hc, hrest⟩ := List.forall₂_cons.mp k
    rw [List.map_cons, List.map_cons, mark_eq_of_covers hb hc, ih hrest]

theorem mark_eq_slash_iff {b : UInt8} : mark b = slash ↔ b = slash := by
  unfold mark
  split_ifs <;> simp_all [slash, dot]

theorem mark_eq_dot_iff {b : UInt8} : mark b = dot ↔ b = dot := by
  unfold mark
  split_ifs <;> simp_all [slash, dot]

theorem splitOn_map_mark (s : Bytes) :
    Bytes.splitOn slash (s.map mark) = (Bytes.splitOn slash s).map (List.map mark) := by
  induction s with
  | nil => rfl
  | cons b s ih =>
    rw [List.map_cons, Bytes.splitOn, Bytes.splitOn, ih]
    cases h : Bytes.splitOn slash s with
    | nil => exact absurd h (Bytes.splitOn_ne_nil slash s)
    | cons w ws =>
      simp only [List.map_cons, mark_eq_slash_iff]
      split <;> rfl

theorem eq_of_blank {w v : Bytes} (hw : Component.ofSegment? w = none)
    (h : w.map mark = v.map mark) : w = v := by
  have hblank : w = [] ∨ w = [dot] := by
    by_contra hno
    rw [Component.ofSegment?, if_neg hno] at hw
    split at hw <;> cases hw
  rcases hblank with rfl | rfl
  · exact (List.map_eq_nil_iff.mp h.symm).symm
  · obtain ⟨c, rfl, hc⟩ := List.map_eq_singleton_iff.mp h.symm
    rw [mark_eq_dot_iff.mp hc]

theorem ofSegment?_injective {w v : Bytes} {c : Component} (hw : Component.ofSegment? w = some c)
    (hv : Component.ofSegment? v = some c) : w = v := by
  unfold Component.ofSegment? at hw hv
  split_ifs at hw hv <;> cases hw <;> cases hv <;> simp_all

theorem eq_of_segments {ws vs : List Bytes} (h : ws.map (List.map mark) = vs.map (List.map mark))
    (k : ws.filterMap Component.ofSegment? = vs.filterMap Component.ofSegment?) : ws = vs := by
  induction ws generalizing vs with
  | nil => exact (List.map_eq_nil_iff.mp h.symm).symm
  | cons w ws ih =>
    cases vs with
    | nil => cases h
    | cons v vs =>
      obtain ⟨hw, hws⟩ := List.cons.inj h
      cases hc : Component.ofSegment? w with
      | none =>
        cases eq_of_blank hc hw
        rw [List.filterMap_cons_none hc, List.filterMap_cons_none hc] at k
        rw [ih hws k]
      | some c =>
        obtain ⟨d, hd⟩ : ∃ d, Component.ofSegment? v = some d := by
          rw [← Option.ne_none_iff_exists']
          intro hnone
          rw [← eq_of_blank hnone hw.symm, hnone] at hc
          cases hc
        rw [List.filterMap_cons_some hc, List.filterMap_cons_some hd] at k
        obtain ⟨rfl, hrest⟩ := List.cons.inj k
        rw [ofSegment?_injective hc hd, ih hws hrest]

theorem eq_of_map_mark (h : s.map mark = t.map mark)
    (k : Path.segmentComponents s = Path.segmentComponents t) : s = t := by
  have hmap := congrArg (Bytes.splitOn slash) h
  rw [splitOn_map_mark, splitOn_map_mark] at hmap
  rw [← Bytes.join_splitOn slash s, eq_of_segments hmap k, Bytes.join_splitOn]

end Glob

namespace Path

open Component (ofSegment?)
open Glob (outline outlineToken)

variable {p q base : Path} {ws vs : List Bytes} {n : Nat}

def SameRoles (p q : Path) : Prop :=
  ∀ rs t, RoleTable.compile rs = .ok t → t.classify p = t.classify q

theorem SameRoles.symm (h : p.SameRoles q) : q.SameRoles p := fun rs t ht => (h rs t ht).symm

theorem SameRoles.covers (h : p.SameRoles q) : List.Forall₂ Glob.Covers p.bytes q.bytes := by
  have hcompile : RoleTable.compile [⟨outline p.bytes, .tests⟩] =
      .ok [⟨⟨p.bytes.map outlineToken⟩, .tests⟩] := by
    rw [RoleTable.compile, Glob.parse_outline]
    rfl
  have hp : Glob.matches ⟨p.bytes.map outlineToken⟩ p.bytes :=
    Glob.matches_outline.mpr (List.forall₂_same.mpr fun b _ => Glob.covers_self b)
  have hrole := h _ _ hcompile
  rw [← Glob.matches_outline]
  by_contra hq
  simp [RoleTable.classify, hp, hq] at hrole

theorem sameRoles_iff (h : segmentComponents p.bytes = segmentComponents q.bytes) :
    p.SameRoles q ↔ p = q := by
  constructor
  · intro hroles
    obtain ⟨s⟩ := p
    obtain ⟨t⟩ := q
    exact congrArg Path.mk
      (Glob.eq_of_map_mark (Glob.map_mark_eq hroles.covers hroles.symm.covers) h)
  · rintro rfl
    exact fun _ _ _ => rfl

end Path

namespace Classifier

variable {σ : Type} {c : Classifier σ} {p q : Path}

theorem classifyRole_join (c : Classifier σ) (hp : p.isAbsolute = false) (t : RoleTable) :
    c.classifyRole (c.root.join p) t =
      t.classify (if c.root.isAbsolute then p.trimmed else c.root.join p) := by
  cases hroot : c.root.isAbsolute with
  | true =>
    have habs : (c.root.join p).isAbsolute :=
      (Path.isAbsolute_join hp (Path.ne_nil_of_isAbsolute hroot)).trans hroot
    rw [classifyRole, relativePath?, if_pos habs, Path.stripPrefix?_join hroot hp]
    rfl
  | false =>
    have habs : ¬(c.root.join p).isAbsolute := by
      by_cases hnil : c.root.bytes = []
      · rw [Path.join_of_nil hnil, hp]
        exact Bool.false_ne_true
      · rw [Path.isAbsolute_join hp hnil, hroot]
        exact Bool.false_ne_true
    rw [classifyRole, relativePath?, if_neg habs]
    rfl

/-- Rules go by the spelling.  Two spellings of one path have the same role under all rules if and
only if they are one spelling; and a path has the role that it has behind the root if and only if
the root is absolute and there are no dots and empty segments at the ends of the path, or the root
is empty. -/
theorem roles_by_spelling (c : Classifier σ) (p q : Path) :
    (p.same q → (p.SameRoles q ↔ p = q)) ∧
    (p.isAbsolute = false → ((∀ rs t, RoleTable.compile rs = .ok t →
      c.classifyRole (c.root.join p) t = c.classifyRole p t) ↔
        if c.root.isAbsolute then p.trimmed = p else c.root.bytes = [])) := by
  refine ⟨fun hsame => Path.sameRoles_iff (Path.lead_eq_of_components (Path.same_iff.mp hsame)).2,
    fun hp => ?_⟩
  have hself (t : RoleTable) : c.classifyRole p t = t.classify p := by
    rw [classifyRole, relativePath?, hp]
    rfl
  simp only [classifyRole_join c hp, hself]
  split
  · exact Path.sameRoles_iff (Path.segmentComponents_trimmed p)
  · constructor
    · intro hroles
      exact Path.nil_of_join hp (Path.SameRoles.covers hroles).length_eq
    · intro hnil
      rw [Path.join_of_nil hnil]
      exact fun _ _ _ => rfl

-- Tests of one kind in `/repo`: a dot before the name or a slash after it hides them.
def testsAtTop : List RoleRule := [⟨"*_test.go", .tests⟩]

def inRepo : Classifier Unit := ⟨.ofString "/repo", [], .ofPaths fun _ => false⟩

theorem compile_testsAtTop : RoleTable.compile testsAtTop =
    .ok [⟨⟨.star :: Glob.literals "_test.go"⟩, .tests⟩] := by
  have hparse : Glob.parse false "*_test.go".toList = .ok ⟨.star :: Glob.literals "_test.go"⟩ := by
    have hplain : "*_test.go".toList.all fun ch => ch ≠ '\\' ∧ ch ≠ '[' := by decide
    have hlexemes : Glob.lexemes false true "*_test.go".toList =
        .char '*' :: "_test.go".toList.map .char :=
      Glob.lexemes_plain fun ch hch => of_decide_eq_true (List.all_eq_true.mp hplain ch hch)
    have hall : "_test.go".toList.all (· ∉ Glob.special) := by decide
    have hname : ∀ ch ∈ "_test.go".toList, ch ∉ Glob.special := fun ch hch =>
      of_decide_eq_true (List.all_eq_true.mp hall ch hch)
    rw [Glob.parse, hlexemes, Glob.group_star hname, Glob.group_lastWord _ hname]
    rfl
  rw [testsAtTop, RoleTable.compile, hparse]
  rfl

theorem roles_of_dotted_path :
    (Path.ofString "./x_test.go").same (.ofString ".//x_test.go") ∧
      ¬(Path.ofString "./x_test.go").SameRoles (.ofString ".//x_test.go") ∧
      (Path.ofString "./x_test.go").isAbsolute = false ∧
      ¬∀ rs t, RoleTable.compile rs = .ok t →
        inRepo.classifyRole (inRepo.root.join (.ofString "./x_test.go")) t =
          inRepo.classifyRole (.ofString "./x_test.go") t := by
  obtain ⟨hsame, hjoin⟩ :=
    roles_by_spelling inRepo (.ofString "./x_test.go") (.ofString ".//x_test.go")
  have hspelling : (Path.ofString "./x_test.go").same (.ofString ".//x_test.go") := by decide
  have hrelative : (Path.ofString "./x_test.go").isAbsolute = false := by decide
  refine ⟨hspelling, ?_, hrelative, ?_⟩
  · rw [hsame hspelling]
    decide
  · rw [hjoin hrelative]
    decide

theorem not_always_roles_by_components :
    ¬∀ (rs : List RoleRule) (t : RoleTable), RoleTable.compile rs = .ok t →
      (∀ p q : Path, p.isAbsolute = false → q.isAbsolute = false → p.same q →
        t.classify p = t.classify q) ∧
      ∀ (c : Classifier Unit) (p : Path), p.isAbsolute = false →
        c.classifyRole (c.root.join p) t = c.classifyRole p t := by
  intro h
  have hrole := (h _ _ compile_testsAtTop).2 inRepo (.ofString "./x_test.go") (by decide)
  have hbehind : inRepo.classifyRole (inRepo.root.join (.ofString "./x_test.go"))
      [⟨⟨.star :: Glob.literals "_test.go"⟩, .tests⟩] = .tests := by decide +kernel
  have hdotted : inRepo.classifyRole (.ofString "./x_test.go")
      [⟨⟨.star :: Glob.literals "_test.go"⟩, .tests⟩] = .source := by decide +kernel
  rw [hbehind, hdotted] at hrole
  cases hrole

end Classifier

end ChunkWatch
