import CustomElement.Proofs.Script.Depth
import CustomElement.Proofs.Script.Gentle

/-!
# Where faults are reported

With a line break in front of a script the faults of reading it and of the walk itself are reported one line further
down, and those of an embedded expression, which are placed in a copy of it, are not (`stripTypes_newline`).
-/

namespace CustomElement.Text

open List

variable {cs : List Char}

def Location.below (loc : Location) : Location := ⟨loc.line + 1, loc.column⟩

lemma Location.advance_below (loc : Location) (cs : List Char) (off : Nat) :
    loc.below.advance cs off = (loc.advance cs off).below := by
  induction cs generalizing loc off with
  | nil => rfl
  | cons c cs ih =>
    unfold Location.advance
    split
    · rfl
    · split
      · exact ih ⟨loc.line + 1, 0⟩ _
      · exact ih ⟨loc.line, loc.column + c.utf8Size⟩ _

lemma Location.of_newline (tx : String) (off : Nat) : Location.of ("\n" ++ tx) (off + 1) = (Location.of tx off).below := by
  have hs : '\n'.utf8Size = 1 := by decide
  have ht : ("\n" ++ tx).toList = '\n' :: tx.toList := by simp
  rw [Location.of, ht, Location.advance, if_neg (by omega), if_pos rfl, hs, Nat.add_sub_cancel]
  exact Location.advance_below ⟨0, 0⟩ tx.toList off

lemma splitAtByte?_newline (cs : List Char) (n : Nat) :
    splitAtByte? ('\n' :: cs) (n + 1) = (splitAtByte? cs n).map fun p => ('\n' :: p.1, p.2) := by
  have hs : '\n'.utf8Size = 1 := by decide
  rw [splitAtByte?, if_pos (by omega), hs, Nat.add_sub_cancel]

lemma slice?_newline (cs : List Char) (m n : Nat) : slice? ('\n' :: cs) (m + 1) (n + 1) = slice? cs m n := by
  unfold slice?
  rw [splitAtByte?_newline, Nat.add_sub_add_right]
  simp only [Nat.add_le_add_iff_right]
  cases splitAtByte? cs m <;> rfl

end CustomElement.Text

namespace CustomElement.Script

open List Text

def Fault.below : Fault → Fault
  | .unterminated what loc => .unterminated what loc.below
  | .unbalanced bracket loc => .unbalanced bracket loc.below
  | .unsupported construct loc => .unsupported construct loc.below
  | .notTyped => .notTyped
  | .notPlain => .notPlain

def Token.later (t : Token) : Token := { t with start := t.start + 1 }

@[simp] lemma Token.start_later (t : Token) : t.later.start = t.start + 1 := rfl

@[simp] lemma Token.stop_later (t : Token) : t.later.stop = t.stop + 1 := by
  simp only [Token.stop, Token.later]
  omega

namespace Stream

/-- The second stream is the first one with a line break in front. -/
structure Lowered (s s' : Stream) : Prop where
  source : s'.source = "\n" ++ s.source
  tokens : s'.tokens = s.tokens.map Token.later
  partners : s'.partners = s.partners
  breaks : s'.breaks = s.breaks

namespace Lowered

variable {s s' : Stream} (h : s.Lowered s')

include h

lemma size : s'.size = s.size := by
  rw [Stream.size, h.tokens, Array.size_map]
  rfl

lemma tok (j : Nat) : s'.tok j = (s.tok j).later := by
  have he : byteLength s'.source.toList = byteLength s.source.toList + 1 := by
    have hs : '\n'.utf8Size = 1 := by decide
    simp only [h.source, toList_append, byteLength_append]
    change '\n'.utf8Size + 0 + _ = _
    omega
  rw [Stream.tok, Stream.tok, h.tokens, he]
  by_cases hl : j < s.tokens.size
  · simp [Array.getD, hl]
  · simp [Array.getD, hl, Token.later]

lemma unsupported (j : Nat) (construct : String) : s'.unsupported j construct = (s.unsupported j construct).below := by
  rw [Stream.unsupported, h.source, h.tok, Token.start_later, Location.of_newline]
  rfl

lemma view_eq : s'.view = s.view := by
  have hb : s'.bare = s.bare := by
    simp only [bare, h.tokens, h.partners, h.breaks, Stream.mk.injEq, and_true, true_and]
    ext i
    · simp
    · simp [Token.later]
  have hte : s'.source.toList = '\n' :: s.source.toList := by simp [h.source]
  have hg (j : Nat) : s'.tokens[j]? = s.tokens[j]?.map Token.later := by rw [h.tokens, Array.getElem?_map]
  have hin (before : List Char) : lineIndent ('\n' :: before) = lineIndent before := by
    have hl : (before.reverse ++ ['\n']).takeWhile (· != '\n') = before.reverse.takeWhile (· != '\n') := by
      induction before.reverse with
      | nil => rfl
      | cons c cs ih => simp only [cons_append, takeWhile_cons, ih]
    rw [lineIndent, reverse_cons, hl, lineIndent]
  unfold view
  rw [hb, hte]
  congr 1
  · funext i j
    simp [h.tok]
  · funext j
    cases ht : s.tokens[j]? with
    | none => simp [hg, ht]
    | some t =>
      simp only [hg, ht, map_some, bind_eq_bind, bind_some, slice?, splitAtByte?, Nat.sub_zero,
        Token.start_later, splitAtByte?_newline]
      cases splitAtByte? s.source.toList t.start with
      | none => rfl
      | some p => exact congrArg some (hin p.1)
  · funext i j
    cases ht : s.tokens[i]? with
    | none => simp [hg, ht]
    | some t =>
      cases hu : s.tokens[j]? with
      | none => simp [hg, ht, hu]
      | some u => simp [hg, ht, hu, slice?_newline]

end Lowered

end Stream

def Unclosed.later (u : Unclosed) : Unclosed := { u with start := u.start + 1 }

inductive Later {α β : Type} (R : α → β → Prop) : Except Unclosed α → Except Unclosed β → Prop
  | ok {a : α} {b : β} (h : R a b) : Later R (.ok a) (.ok b)
  | error (u : Unclosed) : Later R (.error u) (.error u.later)

namespace Later

variable {α β γ δ : Type} {R : α → β → Prop} {Q : γ → δ → Prop} {x : Except Unclosed α} {z : Except Unclosed β}

lemma bind {f : α → Except Unclosed γ} {k : β → Except Unclosed δ} (h : Later R x z)
    (hf : ∀ a b, R a b → Later Q (f a) (k b)) : Later Q (x >>= f) (z >>= k) := by
  cases h with
  | ok h => exact hf _ _ h
  | error u => exact error u

lemma map {f : α → γ} {k : β → δ} (h : Later R x z) (hf : ∀ a b, R a b → Q (f a) (k b)) : Later Q (f <$> x) (k <$> z) := by
  cases h with
  | ok h => exact ok (hf _ _ h)
  | error u => exact error u

lemma ite {c : Prop} [Decidable c] {x' : Except Unclosed α} {z' : Except Unclosed β} (h : c → Later R x z)
    (h' : ¬c → Later R x' z') : Later R (if c then x else x') (if c then z else z') := by
  by_cases hc : c
  · simpa only [if_pos hc] using h hc
  · simpa only [if_neg hc] using h' hc

end Later

lemma plainLexeme_later {off : Nat} {p p' : Option Token} {c : Char} (hm : off = 0 → c = '#' → cs.head? ≠ some '!')
    (hp : regexAllowed p' = regexAllowed p) : Later Eq (plainLexeme off p c cs) (plainLexeme (off + 1) p' c cs) := by
  have hco : startsLineComment (off + 1) c cs = startsLineComment off c cs := by
    have hf : (off == 0 && c == '#' && cs.head? == some '!') = false := by
      simp only [Bool.and_eq_false_iff, beq_eq_false_iff_ne, ne_eq]
      tauto
    rw [startsLineComment, startsLineComment, hf]
    rfl
  unfold plainLexeme
  rw [hco, hp]
  extract_lets closed hex closed'
  have hc (kind : Kind) (what : Literal) (cut : Option (Cut (c :: cs))) :
      Later Eq (closed kind what cut) (closed' kind what cut) := by
    cases cut with
    | none => exact .error _
    | some cut => exact .ok rfl
  exact .ite (fun _ => .ok rfl) fun _ => .ite (fun _ => .ok rfl) fun _ => .ite (fun _ => hc ..) fun _ =>
    .ite (fun _ => hc ..) fun _ => .ite (fun _ => .ok rfl) fun _ => .ite (fun _ => .ok rfl) fun _ =>
    .ite (fun _ => hc ..) fun _ => .ok rfl

lemma lexeme_templateRest_interpolation_later :
    (∀ off p c cs, (off = 0 → c = '#' → cs.head? ≠ some '!') → ∀ p', regexAllowed p' = regexAllowed p →
      Later Eq (lexeme off p c cs) (lexeme (off + 1) p' c cs)) ∧
    (∀ st off cs, Later (fun a b => a.1 = b.1) (templateRest st off cs) (templateRest (st + 1) (off + 1) cs)) ∧
    (∀ st off d p cs, off ≠ 0 → ∀ p', regexAllowed p' = regexAllowed p →
      Later (fun a b => a.1 = b.1) (interpolation st off d p cs) (interpolation (st + 1) (off + 1) d p' cs)) := by
  refine lexeme.mutual_induct _ _ _ ?_ ?_ ?_ ?_ ?_ ?_ ?_ ?_ ?_ ?_
  · intro off p cs ih hm p' hp
    rw [lexeme, lexeme, if_pos rfl, if_pos rfl]
    refine ih.bind ?_
    rintro ⟨cut, subs⟩ ⟨_, subs'⟩ rfl
    exact .ok rfl
  · intro off p c cs hc hm p' hp
    rw [lexeme, lexeme, if_neg hc, if_neg hc]
    exact plainLexeme_later hm hp
  · intro st off
    rw [templateRest, templateRest]
    exact .error _
  · intro st off
    rw [templateRest, templateRest]
    exact .error _
  · intro st off c cs ih
    rw [templateRest, templateRest, show off + 1 + 1 + c.utf8Size = off + 1 + c.utf8Size + 1 by omega]
    refine ih.bind ?_
    rintro ⟨cut, subs⟩ ⟨_, subs'⟩ rfl
    exact .ok rfl
  · intro st off cs
    rw [templateRest, templateRest]
    exact .ok rfl
  · intro st off cs ihcode ihrest
    rw [templateRest, templateRest]
    refine (ihcode (by omega) none rfl).bind ?_
    rintro ⟨code, ts⟩ ⟨_, ts'⟩ rfl
    dsimp only
    rw [show off + 1 + 2 + byteLength code.head = off + 2 + byteLength code.head + 1 by omega]
    refine (ihrest code).bind ?_
    rintro ⟨cut, subs⟩ ⟨_, subs'⟩ rfl
    exact .ok rfl
  · intro st off c cs hon ht hcl hco ih
    rw [templateRest.eq_6 st off c cs hon ht hcl hco, templateRest.eq_6 (st + 1) (off + 1) c cs hon ht hcl hco,
      show off + 1 + c.utf8Size = off + c.utf8Size + 1 by omega]
    refine ih.bind ?_
    rintro ⟨cut, subs⟩ ⟨_, subs'⟩ rfl
    exact .ok rfl
  · intro st off d p ho p' hp
    rw [interpolation, interpolation]
    exact .error _
  · intro st off d p c cs ihtoken ihrest ho p' hp
    rw [interpolation, interpolation]
    refine (ihtoken (by omega) p' hp).bind ?_
    rintro ⟨kind, cut⟩ _ rfl
    dsimp only
    rw [show off + 1 + byteLength cut.head = off + byteLength cut.head + 1 by omega]
    refine .ite (fun _ => .ok rfl) fun _ => (ihrest kind cut (by omega) _ ?_).bind ?_
    · rw [regexAllowed_orPrevious, regexAllowed_orPrevious, hp]
      rfl
    · rintro ⟨more, ts⟩ ⟨_, ts'⟩ rfl
      exact .ok rfl

lemma tokensFrom_later {off : Nat} {p p' : Option Token} (hm : off = 0 → ¬ ['#', '!'] <+: cs)
    (hp : regexAllowed p' = regexAllowed p) :
    Later (fun ts ts' => ts' = ts.map Token.later) (tokensFrom off p cs) (tokensFrom (off + 1) p' cs) := by
  fun_induction tokensFrom off p cs generalizing p' with
  | case1 off p =>
    rw [tokensFrom]
    exact .ok rfl
  | case2 off p c cs ih =>
    have hh : off = 0 → c = '#' → cs.head? ≠ some '!' := by
      rintro rfl rfl hh
      obtain ⟨cs, rfl⟩ := head?_eq_some_iff.1 hh
      exact hm rfl ⟨cs, rfl⟩
    rw [tokensFrom]
    refine (lexeme_templateRest_interpolation_later.1 off p c cs hh p' hp).bind ?_
    rintro ⟨kind, cut⟩ _ rfl
    obtain ⟨d, w, hc⟩ := exists_cons_of_ne_nil cut.head_ne_nil
    have hpo : 0 < byteLength cut.head := by
      have hd := d.utf8Size_pos
      rw [hc, byteLength_cons]
      omega
    dsimp only
    rw [show off + 1 + byteLength cut.head = off + byteLength cut.head + 1 by omega]
    refine (ih kind cut (fun hz => by omega) ?_).bind ?_
    · rw [regexAllowed_orPrevious, regexAllowed_orPrevious, hp]
      rfl
    · rintro us _ rfl
      exact .ok rfl

lemma tokensFrom_gap {c : Char} (hg : isGap c) (off : Nat) (p : Option Token) (cs : List Char) :
    tokensFrom off p (c :: cs) = (fun ts => ⟨.blank, String.ofList (c :: cs.takeWhile isGap), off⟩ :: ts) <$>
        tokensFrom (off + byteLength (c :: cs.takeWhile isGap)) p (cs.dropWhile isGap) := by
  have hq : c ≠ '`' := by
    rintro rfl
    exact absurd hg (by decide)
  rw [tokensFrom, lexeme, if_neg hq, plainLexeme.eq_def, if_pos hg]
  rfl

lemma tokensFrom_newline (hm : ¬ ['#', '!'] <+: cs) :
    Later (fun ts ts' => ∃ g g' r, (∀ t ∈ g, t.isTrivia) ∧ (∀ t ∈ g', t.isTrivia) ∧
        ts = g ++ r ∧ ts' = g' ++ r.map Token.later) (tokensFrom 0 none cs) (tokensFrom 0 none ('\n' :: cs)) := by
  have hn : isGap '\n' := by decide
  have hl (g : List Char) : 0 + byteLength ('\n' :: g) = byteLength g + 1 := by
    have hs : '\n'.utf8Size = 1 := by decide
    rw [byteLength_cons, hs]
    omega
  rw [tokensFrom_gap hn, hl]
  cases cs with
  | nil =>
    rw [tokensFrom, dropWhile_nil, tokensFrom]
    exact .ok ⟨[], [_], [], by simp, by simp [Token.isTrivia], rfl, rfl⟩
  | cons c cs =>
    by_cases hg : isGap c
    · rw [tokensFrom_gap hg, takeWhile_cons_of_pos hg, dropWhile_cons_of_pos hg, zero_add]
      have hp := c.utf8Size_pos
      refine (tokensFrom_later (fun hz => ?_) rfl).map ?_
      · rw [byteLength_cons] at hz
        omega
      · rintro r _ rfl
        exact ⟨[_], [_], r, by simp [Token.isTrivia], by simp [Token.isTrivia], rfl, rfl⟩
    · rw [takeWhile_cons_of_neg hg, dropWhile_cons_of_neg hg, byteLength_nil, ← id_map (tokensFrom 0 none (c :: cs))]
      refine (tokensFrom_later (fun _ => hm) rfl).map ?_
      rintro r _ rfl
      exact ⟨[], [_], r, by simp, by simp [Token.isTrivia], rfl, rfl⟩

lemma Stream.drop_one_breaksFrom (pending pending' : Bool) (ts : List Token) :
    (Stream.breaksFrom pending ts).drop 1 = (Stream.breaksFrom pending' ts).drop 1 := by
  induction ts generalizing pending pending' with
  | nil => rfl
  | cons t ts ih =>
    rw [Stream.breaksFrom, Stream.breaksFrom]
    split
    · exact ih _ _
    · rfl

lemma Stream.drop_one_breaksFrom_append (pending pending' : Bool) {g : List Token} (hg : ∀ t ∈ g, t.isTrivia)
    (ts : List Token) : (Stream.breaksFrom pending (g ++ ts)).drop 1 = (Stream.breaksFrom pending' ts).drop 1 := by
  induction g generalizing pending with
  | nil => exact Stream.drop_one_breaksFrom pending pending' ts
  | cons t g ih =>
    obtain ⟨ht, hg⟩ := forall_mem_cons.1 hg
    rw [cons_append, Stream.breaksFrom, if_pos ht]
    exact ih _ hg

lemma Stream.breaksFrom_map_later (pending : Bool) (ts : List Token) :
    Stream.breaksFrom pending (ts.map Token.later) = Stream.breaksFrom pending ts := by
  induction ts generalizing pending with
  | nil => rfl
  | cons t ts ih =>
    rw [map_cons, Stream.breaksFrom, Stream.breaksFrom, ih, ih]
    rfl

lemma Node.partnersOf_map (f : Token → Token) (i : Nat) (ns : List Node) :
    partnersOf i (ns.map (Node.map f)) = partnersOf i ns := by
  induction ns using Node.forest_induction generalizing i with
  | nil => rfl
  | leaf t ns ih => simp [partnersOf, Node.partners, ih]
  | group o ms c ns hm ih => simp [partnersOf, Node.partners, hm, ih]

def OpenGroup.later (group : OpenGroup) : OpenGroup := ⟨group.opener.later, group.before.map (Node.map Token.later)⟩

lemma unbalanced_newline (src : String) (t : Token) : unbalanced ("\n" ++ src) t.later = (unbalanced src t).below := by
  rw [unbalanced, Token.start_later, Location.of_newline]
  rfl

lemma forestFrom_newline (src : String) (ts : List Token) (siblings : List Node) (st : List OpenGroup) :
    forestFrom ("\n" ++ src) (ts.map Token.later) (siblings.map (Node.map Token.later)) (st.map OpenGroup.later) =
      (map (Node.map Token.later) <$> forestFrom src ts siblings st).mapError Fault.below := by
  fun_induction forestFrom src ts siblings st with
  | case1 siblings =>
    simp only [map_nil, forestFrom, ← map_reverse]
    rfl
  | case2 siblings group st =>
    simp only [map_nil, map_cons, forestFrom]
    exact congrArg Except.error (unbalanced_newline src group.opener)
  | case3 t ts siblings st ho ih =>
    rw [map_cons, forestFrom_opener (t := t.later) ho]
    exact ih
  | case4 t ts siblings ho hc =>
    rw [map_cons, map_nil, forestFrom, if_neg (by exact ho), if_pos (by exact hc)]
    exact congrArg Except.error (unbalanced_newline src t)
  | case5 t ts siblings ho hc group st hf ih =>
    rw [map_cons, map_cons, forestFrom, if_neg (by exact ho), if_pos (by exact hc)]
    rw [if_pos (by exact hf), ← ih]
    simp [OpenGroup.later]
  | case6 t ts siblings ho hc group st hf =>
    rw [map_cons, map_cons, forestFrom, if_neg (by exact ho), if_pos (by exact hc)]
    rw [if_neg (by exact hf)]
    exact congrArg Except.error (unbalanced_newline src t)
  | case7 t ts siblings st ho hc ih =>
    rw [map_cons, forestFrom_leaf (t := t.later) (eq_false_iff.2 ho) (eq_false_iff.2 hc)]
    exact ih

lemma matchBrackets_newline (src : String) (ts : List Token) :
    matchBrackets ("\n" ++ src) (ts.map Token.later) = (matchBrackets src ts).mapError Fault.below := by
  unfold matchBrackets forest
  have hf := forestFrom_newline src ts [] []
  rw [map_nil, map_nil] at hf
  rw [hf]
  cases forestFrom src ts [] [] with
  | error fault => rfl
  | ok ns => exact congrArg Except.ok (Node.partnersOf_map Token.later 0 ns)

namespace Stream

lemma read_newline {src : String} (hma : ¬ ['#', '!'] <+: src.toList) :
    (∃ fault, Stream.read src = .error fault ∧ Stream.read ("\n" ++ src) = .error fault.below) ∨
      ∃ s s', Stream.read src = .ok s ∧ Stream.read ("\n" ++ src) = .ok s' ∧ s.Lowered s' := by
  have hte : ("\n" ++ src).toList = '\n' :: src.toList := by simp
  have ht := tokensFrom_newline hma
  unfold Stream.read tokenize
  rw [hte]
  generalize tokensFrom 0 none src.toList = ts at ht ⊢
  generalize tokensFrom 0 none ('\n' :: src.toList) = ts' at ht ⊢
  cases ht with
  | error u =>
    refine .inl ⟨_, rfl, congrArg Except.error ?_⟩
    rw [Unclosed.toFault, Unclosed.later, Location.of_newline]
    rfl
  | ok h =>
    obtain ⟨g, g', r, hg, hg', rfl, rfl⟩ := h
    have hc : (g ++ r).filter (fun t => !t.isTrivia) = r.filter fun t => !t.isTrivia := by
      rw [filter_append, filter_eq_nil_iff.2 (by simpa using hg), nil_append]
    have hc' : (g' ++ r.map Token.later).filter (fun t => !t.isTrivia) =
        (r.filter fun t => !t.isTrivia).map Token.later := by
      rw [filter_append, filter_eq_nil_iff.2 (by simpa using hg'), nil_append, filter_map]
      rfl
    have hm := matchBrackets_newline src (r.filter fun t => !t.isTrivia)
    change (∃ fault, (matchBrackets src _ >>= _) = _ ∧ (matchBrackets ("\n" ++ src) _ >>= _) = _) ∨
      ∃ s s', (matchBrackets src _ >>= _) = _ ∧ (matchBrackets ("\n" ++ src) _ >>= _) = _ ∧ _
    rw [hc, hc', hm]
    cases matchBrackets src (r.filter fun t => !t.isTrivia) with
    | error fault => exact .inl ⟨fault, rfl, rfl⟩
    | ok partners =>
      refine .inr ⟨_, _, rfl, rfl, rfl, ?_, rfl, ?_⟩
      · simp
      · rw [drop_one_breaksFrom_append false false hg, drop_one_breaksFrom_append false false hg', breaksFrom_map_later]

end Stream

def Fault.isOwn : Fault → Bool
  | .unsupported .. => true
  | _ => false

def blot (erase : String → Except Fault String) (expr : String) : Except Fault String :=
  (erase expr).mapError fun _ => .notPlain

/-- What stops the walk of a script is found inside an embedded expression. -/
def faultsInside (source : String) : Bool :=
  match Stream.read source with
  | .error _ => false
  | .ok s =>
    match s.scan (blot (eraseExpression source.length)) .block {} s.size 0 with
    | .error fault => !fault.isOwn
    | .ok _ => false

lemma isOwn_faultOf {α : Type} {x : Except Fault α} (h : ∀ fault, x = .error fault → fault.isOwn = false) :
    (Stream.faultOf x).isOwn = false := by
  cases x with
  | error fault => exact h fault rfl
  | ok a => rfl

lemma isOwn_report_blot {s : Stream} (er : String → Except Fault String) (snag : Snag) :
    (s.report (blot er) snag).isOwn ↔ ∃ j construct, snag = .own j construct := by
  cases snag with
  | own j construct => exact ⟨fun _ => ⟨j, construct, rfl⟩, fun _ => rfl⟩
  | dividing template =>
    have ho : (Stream.faultOf (templateSubstitutions template)).isOwn = false := isOwn_faultOf fun fault h => by
      unfold templateSubstitutions at h
      split at h
      · obtain rfl := error.inj h
        rfl
      · split at h
        · cases h
        · obtain rfl := error.inj h
          rfl
    simp [Stream.report, ho]
  | erasing expr =>
    have ho : (Stream.faultOf (blot er expr)).isOwn = false := isOwn_faultOf fun fault h => by
      unfold blot at h
      cases he : er expr with
      | error found =>
        rw [he] at h
        obtain rfl := error.inj h
        rfl
      | ok tx =>
        rw [he] at h
        cases h
    simp [Stream.report, ho]
  | reading expr =>
    have ho : (Stream.faultOf (tokenize expr)).isOwn = false := isOwn_faultOf fun fault h => by
      unfold tokenize at h
      cases ht : tokensFrom 0 none expr.toList with
      | error unclosed =>
        rw [ht] at h
        obtain rfl := error.inj h
        rfl
      | ok ts =>
        rw [ht] at h
        cases h
    simp [Stream.report, ho]

lemma typeEdits_newline {source : String} {fault : Fault} (hm : ¬ ['#', '!'] <+: source.toList)
    (h : typeEdits source = .error fault) :
    typeEdits ("\n" ++ source) = .error (if faultsInside source then fault else fault.below) := by
  rcases Stream.read_newline hm with ⟨unread, hr, hr'⟩ | ⟨s, s', hr, hr', hl⟩
  · have hfa : typeEdits source = .error unread := by rw [typeEdits, hr]; rfl
    obtain rfl := error.inj (hfa.symm.trans h)
    have hin : faultsInside source = false := by rw [faultsInside, hr]
    rw [typeEdits, hr', hin]
    rfl
  · -- An embedded expression is shorter than the script, so the length of the script is depth enough for both walks.
    have hle : ("\n" ++ source).length = source.length + 1 := by
      rw [String.length_append]
      exact add_comm 1 source.length
    have hso : s.source = source := by
      obtain ⟨-, -, -, -, hso, -⟩ := Stream.exists_of_read hr
      exact hso
    have hd (e : String) (he : e.length + 3 ≤ s.source.length) :
        eraseExpression (source.length + 1) e = eraseExpression source.length e := by
      rw [hso] at he
      exact eraseExpression_stable (by omega) (by omega)
    -- All three walks follow the one on the view.
    obtain ⟨erase?, hlo⟩ : ∃ f : String → Option (Option String),
        ∀ e, f e = some (eraseExpression (source.length + 1) e).toOption := ⟨_, fun _ => rfl⟩
    have hf := Stream.framed_of_size_le hr le_rfl (Nat.le_succ _) 0
    have hs : s.Follows (eraseExpression source.length) _ (s.view.scan? erase? .block {} s.size 0) _ :=
      hf.scan (fun e he => by rw [hlo, hd e he]) le_rfl nofun (.start 0)
    have hb : s.Follows (blot (eraseExpression source.length)) _ (s.view.scan? erase? .block {} s.size 0) _ :=
      hf.scan (fun e he => by
        rw [hlo, hd e he, blot]
        cases eraseExpression source.length e <;> rfl) le_rfl nofun (.start 0)
    have hs' : s'.Follows (eraseExpression (source.length + 1)) _ (s'.view.scan? erase? .block {} s'.size 0) _ :=
      (Stream.framed_of_size_le hr' le_rfl (Nat.le_succ _) 0).scan (fun e _ => hlo e) le_rfl nofun (.start 0)
    rw [hl.view_eq, hl.size] at hs'
    have hw : s.scan (eraseExpression source.length) .block {} s.size 0 = .error fault := by
      rwa [typeEdits, hr] at h
    have hw' : typeEdits ("\n" ++ source) = s'.scan (eraseExpression (source.length + 1)) .block {} s.size 0 := by
      rw [typeEdits, hr', hle, ← hl.size]
      rfl
    generalize s.view.scan? erase? .block {} s.size 0 = outcome at hs hb hs'
    rcases hs.exists_or with ⟨chs, es, rfl, hed, -⟩ | ⟨snag, hfi, rfl, hfa⟩
    · cases hed.symm.trans hw
    obtain rfl := error.inj (hw.symm.trans hfa)
    have hin : faultsInside source = !(s.report (blot (eraseExpression source.length)) snag).isOwn := by
      rw [faultsInside, hr]
      simp only [hb.eq_of_throw]
    rw [hw', hs'.eq_of_throw, hin]
    by_cases ho : ∃ j construct, snag = .own j construct
    · rw [(isOwn_report_blot _ snag).2 ho]
      obtain ⟨j, construct, rfl⟩ := ho
      exact congrArg Except.error (hl.unsupported j construct)
    · rw [eq_false_iff.2 (mt (isOwn_report_blot _ snag).1 ho)]
      refine congrArg Except.error ?_
      cases snag with
      | own j construct => exact absurd ⟨j, construct, rfl⟩ ho
      | erasing expr => simp [Stream.report, hd expr hfi]
      | _ => rfl

lemma stripTypes_eq_error_iff {grammar : Grammar} {src : String} {fault : Fault}
    (hp : fault ≠ .notTyped ∧ fault ≠ .notPlain) :
    stripTypes grammar src = .error fault ↔ grammar.typed src ∧ typeEdits src = .error fault := by
  unfold stripTypes eraseTypes
  cases grammar.typed src with
  | false =>
    refine ⟨fun h => ?_, fun h => absurd h.1 (by decide)⟩
    exact absurd (error.inj h).symm hp.1
  | true =>
    cases typeEdits src with
    | error found =>
      exact ⟨fun h => ⟨rfl, congrArg Except.error (error.inj h)⟩, fun h => congrArg Except.error (error.inj h.2)⟩
    | ok es =>
      refine ⟨fun h => ?_, fun h => absurd h.2 (by simp)⟩
      change (if grammar.plain (applyEdits src es) then Except.ok (applyEdits src es)
        else Except.error Fault.notPlain) = _ at h
      split at h
      · cases h
      · exact absurd (error.inj h).symm hp.2

/-- **Where the faults of a script are reported.** With a line break in front, a fault is reported one line further down,
unless it lies in an expression embedded in a template literal or an enumeration: then its place stays as it was. -/
theorem stripTypes_newline (grammar : Grammar) {source : String} {fault : Fault} (hmark : ¬ ['#', '!'] <+: source.toList)
    (htyped : grammar.typed ("\n" ++ source) = grammar.typed source) (hplace : fault ≠ .notTyped ∧ fault ≠ .notPlain)
    (h : stripTypes grammar source = .error fault) :
    stripTypes grammar ("\n" ++ source) = .error (if faultsInside source then fault else fault.below) := by
  obtain ⟨hok, hedits⟩ := (stripTypes_eq_error_iff hplace).1 h
  refine (stripTypes_eq_error_iff ?_).2 ⟨htyped.trans hok, typeEdits_newline hmark hedits⟩
  split
  · exact hplace
  · cases fault with
    | notTyped => exact absurd rfl hplace.1
    | notPlain => exact absurd rfl hplace.2
    | _ => exact ⟨nofun, nofun⟩

theorem stripTypes_newline_template :
    stripTypes ⟨fun _ => true, fun _ => true⟩ "`$\x7bx as A extends B|C?D:E\x7d`" =
        .error (.unsupported "conditional type" ⟨0, 8⟩) ∧
      stripTypes ⟨fun _ => true, fun _ => true⟩ ("\n" ++ "`$\x7bx as A extends B|C?D:E\x7d`") =
        .error (.unsupported "conditional type" ⟨0, 8⟩) := by
  have h : stripTypes ⟨fun _ => true, fun _ => true⟩ "`$\x7bx as A extends B|C?D:E\x7d`" =
      .error (.unsupported "conditional type" ⟨0, 8⟩) := by decide +kernel
  have hinside : faultsInside "`$\x7bx as A extends B|C?D:E\x7d`" = true := by decide +kernel
  refine ⟨h, ?_⟩
  have hlowered := stripTypes_newline ⟨fun _ => true, fun _ => true⟩ (by decide) rfl (by decide) h
  rwa [hinside] at hlowered

end CustomElement.Script
