import ChunkWatch.Proofs.Glob.Accept
import ChunkWatch.Role

/-! Patterns of three shapes, as the rules of languages are written: files with a name that begins
and ends in some way, and what is below directories of one name, at the top or anywhere.  Each is
read as its tokens, and what it matches is said by the names of a path. -/

namespace ChunkWatch.Glob

open Bytes (join)

inductive Shape : Type
  | named : (first last : String) → Shape
  | below : (dir : String) → Shape
  | belowTop : (dir : String) → Shape
  deriving DecidableEq

/-- The characters that do not stand for themselves, in a pattern or in the name of an entry. -/
def special : List Char := ['\\', '[', '?', '*', '{', '}', ',', '/']

namespace Shape

def words : Shape → List String
  | named first last => [first, last]
  | below dir => [dir]
  | belowTop dir => [dir]

def text : Shape → List Char
  | named first last => '*' :: '*' :: '/' :: (first.toList ++ '*' :: last.toList)
  | below dir => '*' :: '*' :: '/' :: (dir.toList ++ ['/', '*', '*'])
  | belowTop dir => dir.toList ++ ['/', '*', '*']

def tokens : Shape → List Token
  | named first last => .deepPrefix :: (literals first ++ .star :: literals last)
  | below dir => .deepPrefix :: (literals dir ++ [.deepSuffix])
  | belowTop dir => literals dir ++ [.deepSuffix]

def fits (dirs : List Bytes) (name : Bytes) : Shape → Bool
  | named first last => (Bytes.ofString first).isPrefixOf name &&
      (Bytes.ofString last).isSuffixOf (name.drop (Bytes.ofString first).length)
  | below dir => dirs.contains (.ofString dir)
  | belowTop dir => dirs.head? == some (.ofString dir)

def IsPlain (p : Shape) : Prop := ∀ w ∈ p.words,
  w.toList.all (· ∉ special) ∧ slash ∉ Bytes.ofString w ∧ w.toList.getLast? ≠ some '.'

instance : DecidablePred IsPlain := fun p => inferInstanceAs (Decidable (∀ w ∈ p.words,
  w.toList.all (· ∉ special) ∧ slash ∉ Bytes.ofString w ∧ w.toList.getLast? ≠ some '.'))

theorem IsPlain.word {p : Shape} {w : String} (h : p.IsPlain) (hw : w ∈ p.words) :
    ∀ c ∈ w.toList, c ∉ special := by
  intro c hc
  exact of_decide_eq_true (List.all_eq_true.mp (h w hw).1 c hc)

end Shape

variable {lenient classes : Bool} {before : Option Char} {o : Open} {c : Char} {cs : List Char}
  {s : List Lexeme} {w : String} {p : Shape} {dirs : List Bytes} {name : Bytes}

theorem lexemes_plain (h : ∀ c ∈ cs, c ≠ '\\' ∧ c ≠ '[') :
    lexemes lenient classes cs = cs.map .char := by
  induction cs with
  | nil =>
    rw [lexemes]
    rfl
  | cons c cs ih =>
    obtain ⟨⟨hescape, hclass⟩, hcs⟩ := List.forall_mem_cons.mp h
    rw [lexemes]
    · rw [if_neg fun hc => hclass hc.1, ih hcs, List.map_cons]
    · exact fun hc _ => hescape hc
    · exact fun _ _ hc _ => hescape hc

theorem group_char (h : c ∉ special) :
    group before o (.char c :: s) = group (some c) (o.push [.literal c]) s := by
  rw [group]
  all_goals (intros; rename_i hc; subst hc; exact h (by decide))

theorem push_push (o : Open) (ts us : List Token) : (o.push ts).push us = o.push (ts ++ us) := by
  simp [Open.push]

theorem group_word (h : ∀ c ∈ cs, c ∉ special) :
    group before o (cs.map .char ++ s) =
      group (cs.getLast?.or before) (o.push (cs.map .literal)) s := by
  induction cs generalizing before o with
  | nil => simp [Open.push]
  | cons c cs ih =>
    obtain ⟨hc, hcs⟩ := List.forall_mem_cons.mp h
    rw [List.map_cons, List.cons_append, group_char hc, ih hcs, push_push, List.getLast?_cons]
    cases cs.getLast? <;> rfl

theorem group_start (ts : List Token) : group before (Open.start.push ts) [] = .ok ts := by
  rw [group]
  simp [Open.push, Open.start, Open.inGroup]

theorem group_lastWord (ts : List Token) (h : ∀ c ∈ cs, c ∉ special) :
    group before (Open.start.push ts) (cs.map .char) = .ok (ts ++ cs.map .literal) := by
  rw [← List.append_nil (cs.map Lexeme.char), group_word h, push_push, group_start]

theorem group_slash :
    group before o (.char '/' :: s) = group (some '/') (o.push [.literal '/']) s := by
  rw [group]
  all_goals (intros; rename_i hc; cases hc)

theorem group_deepPrefix : group none .start (.char '*' :: .char '*' :: .char '/' :: s) =
    group (some '/') (Open.start.push [.deepPrefix]) s := by
  rw [group]
  rfl

theorem group_star (h : ∀ c ∈ cs, c ∉ special) : group before o (.char '*' :: cs.map .char) =
    group (some '*') (o.push [.star]) (cs.map .char) := by
  rw [group]
  intro t ht
  cases cs with
  | nil => cases ht
  | cons c cs =>
    cases ht
    exact absurd (h '*' List.mem_cons_self) (by decide)

theorem group_deepSuffix (ts : List Token) :
    group before (Open.start.push ts) [.char '/', .char '*', .char '*'] =
      .ok (ts ++ [.deepSuffix]) := by
  have hstars : doubleStar (some '/') ((Open.start.push ts).push [.literal '/']) [] =
      ((Open.start.push ts).push [.deepSuffix], false) := rfl
  rw [group_slash, group]
  case heq => exact hstars
  · rw [push_push, group_start]
  · exact fun _ _ h => nomatch h

theorem Shape.mem_text (h : c ∈ p.text) : (∃ w ∈ p.words, c ∈ w.toList) ∨ c = '*' ∨ c = '/' := by
  cases p <;> simp [text, words] at h ⊢ <;> tauto

theorem parse_text (h : p.IsPlain) : parse lenient p.text = .ok ⟨p.tokens⟩ := by
  have hlexemes : lexemes lenient true p.text = p.text.map .char := by
    refine lexemes_plain fun c hc => ?_
    rcases Shape.mem_text hc with ⟨w, hw, hc⟩ | rfl | rfl
    · have hplain := h.word hw c hc
      exact ⟨by rintro rfl; exact hplain (by decide), by rintro rfl; exact hplain (by decide)⟩
    · decide
    · decide
  rw [parse, hlexemes]
  cases p with
  | named first last =>
    have hfirst := h.word (w := first) (by simp [Shape.words])
    have hlast := h.word (w := last) (by simp [Shape.words])
    simp only [Shape.text, List.map_cons, List.map_append]
    rw [group_deepPrefix, group_word hfirst, group_star hlast, push_push, push_push,
      group_lastWord _ hlast]
    simp [Shape.tokens, literals, Except.map]
  | below dir =>
    have hdir := h.word (w := dir) (by simp [Shape.words])
    simp only [Shape.text, List.map_cons, List.map_append, List.map_nil]
    rw [group_deepPrefix, group_word hdir, push_push, group_deepSuffix]
    rfl
  | belowTop dir =>
    have hdir := h.word (w := dir) (by simp [Shape.words])
    simp only [Shape.text, List.map_cons, List.map_append, List.map_nil]
    rw [group_word hdir, group_deepSuffix]
    rfl

theorem matches_eq_allAccept {ts : List Token} {s : Bytes} (hdeep : ts ≠ [.deepPrefix])
    (hdot : endsInDot ts = false) : Glob.matches ⟨ts⟩ s = allAccept ts List.isEmpty s := by
  unfold «matches»
  split
  next h => exact absurd h hdeep
  next => rw [hdot, Bool.false_and, Bool.not_false, Bool.true_and]

theorem Shape.tokens_ne_deepPrefix (p : Shape) : p.tokens ≠ [.deepPrefix] := by
  cases p <;> simp [tokens, List.append_eq_singleton_iff]

theorem endsInDot_iff {ts : List Token} : endsInDot ts ↔ ts.getLast? = some (.literal '.') := by
  unfold endsInDot
  split <;> simp_all

theorem Shape.endsInDot_tokens (h : p.IsPlain) : endsInDot p.tokens = false := by
  rw [Bool.eq_false_iff, ne_eq, endsInDot_iff]
  intro hdot
  cases p with
  | named first last =>
    refine (h last (by simp [words])).2.2 ?_
    rw [tokens, List.getLast?_cons, List.getLast?_append, List.getLast?_cons, literals,
      List.getLast?_map] at hdot
    cases hlast : last.toList.getLast? <;> simp_all
  | below dir =>
    rw [tokens, List.getLast?_cons, List.getLast?_append] at hdot
    simp at hdot
  | belowTop dir =>
    rw [tokens, List.getLast?_append] at hdot
    simp at hdot

theorem allAccept_named {first last : String} {s : Bytes} :
    allAccept (literals first ++ .star :: literals last) List.isEmpty s ↔
      ∃ mid, s = Bytes.ofString first ++ (mid ++ Bytes.ofString last) ∧ slash ∉ mid := by
  have hend (back : Bytes) :
      allAccept (literals last) List.isEmpty back ↔ back = Bytes.ofString last := by
    rw [← List.append_nil (literals last), allAccept_literals]
    simp [allAccept]
  rw [allAccept_literals]
  constructor
  · rintro ⟨back, rfl, hback⟩
    obtain ⟨mid, back, rfl, hmid, hback⟩ := allAccept_star.mp hback
    rw [(hend back).mp hback]
    exact ⟨mid, rfl, hmid⟩
  · rintro ⟨mid, rfl, hmid⟩
    exact ⟨_, rfl, allAccept_star.mpr ⟨mid, _, rfl, hmid, (hend _).mpr rfl⟩⟩

theorem fits_named {first last : String} : (Shape.named first last).fits dirs name ↔
    ∃ mid, name = Bytes.ofString first ++ (mid ++ Bytes.ofString last) := by
  rw [Shape.fits, Bool.and_eq_true, List.isPrefixOf_iff_prefix, List.isSuffixOf_iff_suffix]
  constructor
  · rintro ⟨⟨back, rfl⟩, hlast⟩
    rw [List.drop_left] at hlast
    obtain ⟨mid, rfl⟩ := hlast
    exact ⟨mid, rfl⟩
  · rintro ⟨mid, rfl⟩
    rw [List.drop_left]
    exact ⟨List.prefix_append .., List.suffix_append ..⟩

theorem allAccept_directory {dir : String} {names : List Bytes} (hdir : slash ∉ Bytes.ofString dir)
    (h : ∀ n ∈ names, slash ∉ n) (hne : names ≠ []) :
    allAccept (literals dir ++ [.deepSuffix]) List.isEmpty (join slash names) ↔
      ∃ vs, names = .ofString dir :: vs ∧ vs ≠ [] := by
  rw [allAccept_literals]
  constructor
  · rintro ⟨back, heq, hback⟩
    obtain ⟨back, rfl⟩ := allAccept_deepSuffix.mp hback
    obtain ⟨us, vs, rfl, hus, hvs, hfront, -⟩ := (Bytes.join_eq_append_iff h hne).mp heq
    rw [(Bytes.join_eq_iff hdir hus).mp hfront.symm]
    exact ⟨vs, rfl, hvs⟩
  · rintro ⟨vs, rfl, hvs⟩
    refine ⟨slash :: join slash vs, ?_, allAccept_deepSuffix.mpr ⟨_, rfl⟩⟩
    rw [← List.singleton_append, Bytes.join_append (by simp) hvs,
      (Bytes.join_eq_iff hdir (by simp)).mpr rfl]

theorem matches_eq_fits (h : p.IsPlain) (hnames : ∀ n ∈ dirs ++ [name], slash ∉ n) :
    Glob.matches ⟨p.tokens⟩ (join slash (dirs ++ [name])) = p.fits dirs name := by
  rw [matches_eq_allAccept p.tokens_ne_deepPrefix (Shape.endsInDot_tokens h), Bool.eq_iff_iff]
  have hne : dirs ++ [name] ≠ [] := by simp
  cases p with
  | named first last =>
    have hfirst := (h first (by simp [Shape.words])).2.1
    have hlast := (h last (by simp [Shape.words])).2.1
    rw [Shape.tokens, allAccept_deepPrefix hnames hne, fits_named]
    constructor
    · rintro ⟨us, vs, heq, hvs, hall⟩
      obtain ⟨mid, hjoin, hmid⟩ := allAccept_named.mp hall
      -- What the words and the star take has no slash, so it is the name alone.
      have hname := (Bytes.join_eq_iff (by simp [hfirst, hmid, hlast]) hvs).mp hjoin
      rw [hname] at heq
      exact ⟨mid, by simpa using congrArg List.getLast? heq⟩
    · rintro ⟨mid, rfl⟩
      have hname := hnames _ (List.mem_append_right dirs List.mem_cons_self)
      refine ⟨dirs, _, rfl, by simp, ?_⟩
      rw [(Bytes.join_eq_iff hname (by simp)).mpr rfl]
      simp only [List.mem_append, not_or] at hname
      exact allAccept_named.mpr ⟨mid, rfl, hname.2.1⟩
  | below dir =>
    have hdir := (h dir (by simp [Shape.words])).2.1
    rw [Shape.tokens, allAccept_deepPrefix hnames hne, Shape.fits, List.contains_iff_mem]
    constructor
    · rintro ⟨us, vs, heq, hvs, hall⟩
      rw [heq] at hnames
      obtain ⟨vs, rfl, hne⟩ :=
        (allAccept_directory hdir (fun n hn => hnames n (List.mem_append_right us hn)) hvs).mp hall
      have hdirs := congrArg List.dropLast heq
      rw [List.dropLast_concat, List.dropLast_append_of_ne_nil hvs,
        List.dropLast_cons_of_ne_nil hne] at hdirs
      simp [hdirs]
    · intro hmem
      obtain ⟨us, vs, rfl⟩ := List.append_of_mem hmem
      refine ⟨us, .ofString dir :: (vs ++ [name]), by simp, by simp, ?_⟩
      refine (allAccept_directory hdir (fun n hn => hnames n ?_) (by simp)).mpr ⟨_, rfl, by simp⟩
      rw [List.append_assoc]
      exact List.mem_append_right us hn
  | belowTop dir =>
    have hdir := (h dir (by simp [Shape.words])).2.1
    rw [Shape.tokens, allAccept_directory hdir hnames hne, Shape.fits, beq_iff_eq]
    cases dirs with
    | nil => simp
    | cons d dirs => simp

end ChunkWatch.Glob
