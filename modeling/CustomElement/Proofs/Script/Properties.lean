import CustomElement.Proofs.Script.Decisions

/-!
# Parameter properties

For every parameter of a constructor that begins with access modifiers an assignment is put in, behind the first call
of `super` that is a statement of the body, or else at its start.
-/

namespace CustomElement.Script

open List Text

namespace Stream

variable (s : Stream)

/-- The positions from `m` up to `hi` outside inner brackets. An opening bracket stands for its group. -/
def topLevel (hi m : Nat) : List Nat := if m < hi then m :: topLevel hi (s.skip hi m) else []
termination_by hi - m
decreasing_by
  have h := s.lt_skip hi m
  omega

/-- A call of `super` stands at `m` that is a statement of the body that starts at `lo`. -/
def callsSuper (lo m : Nat) : Bool :=
  s.is m "super" && s.is (m + 1) "(" && (m == lo || s.isAny (m - 1) [";", closeBrace] || s.breakBefore m)

/-- The name of the parameter that starts at `m`, if it begins with access modifiers. -/
def propertyAt (hi m : Nat) : Option String :=
  if m < s.skipAccessModifiers hi m then some (s.tok (s.skipAccessModifiers hi m)).text else none

/-- The parameters of a list start at its beginning and behind its commas. Angles do not hide a comma. -/
def parameterStarts (hi m : Nat) : List Nat := m :: ((s.topLevel hi m).filter fun j => s.is j ",").map (· + 1)

variable {s}

lemma superCallFrom_eq (lo hi m : Nat) : s.superCallFrom lo hi m = (s.topLevel hi m).find? (s.callsSuper lo) := by
  fun_induction superCallFrom s lo hi m with
  | case1 m hl hc =>
    have hc : s.callsSuper lo m := hc
    rw [topLevel, if_pos hl, find?_cons_of_pos hc]
  | case2 m hl hc ih =>
    have hc : ¬ s.callsSuper lo m := hc
    rw [topLevel, if_pos hl, find?_cons_of_neg hc, ih]
  | case3 m hl => rw [topLevel, if_neg hl]; rfl

lemma propertyAt_of_le {hi m : Nat} (h : hi ≤ m) : s.propertyAt hi m = none := by
  have hs : s.skipAccessModifiers hi m = m := by rw [skipAccessModifiers, if_neg (by omega)]
  rw [propertyAt, hs, if_neg (Nat.lt_irrefl m)]

lemma skip_of_comma {hi m : Nat} (h : s.is m ",") : s.skip hi m = m + 1 := by
  have ht : (s.tok m).text = "," := beq_iff_eq.1 (and_eq_true_iff.1 h).2
  have ho : (s.tok m).isOpener = false := by simp [Token.isOpener, ht, openBrace]
  rw [skip, ho]
  rfl

lemma propertyNamesFrom_eq (hi m : Nat) (atParameter : Bool) : s.propertyNamesFrom hi m atParameter =
    ((if atParameter then [m] else []) ++ ((s.topLevel hi m).filter fun j => s.is j ",").map (· + 1)).filterMap
      (s.propertyAt hi) := by
  -- The parameter behind a comma is the next position.
  have hc : ∀ m, m < hi → ((s.topLevel hi m).filter fun j => s.is j ",").map (· + 1) =
      (if s.is m "," then [s.skip hi m] else []) ++
        ((s.topLevel hi (s.skip hi m)).filter fun j => s.is j ",").map (· + 1) := by
    intro m hl
    rw [topLevel, if_pos hl, filter_cons]
    split
    · rename_i hco
      rw [map_cons, skip_of_comma hco]
      rfl
    · rfl
  fun_induction propertyNamesFrom s hi m atParameter with
  | case1 m atParameter hl k r hn ih =>
    obtain ⟨ha, hna⟩ := and_eq_true_iff.1 hn
    have hp : s.propertyAt hi m = some (s.tok k).text := if_pos (of_decide_eq_true hna)
    rw [hc m hl, ha, filterMap_append, ← ih]
    simp [hp, r]
  | case2 m atParameter hl k r hn ih =>
    rw [hc m hl, filterMap_append, ← ih]
    split
    · rename_i ha
      have hp : s.propertyAt hi m = none := if_neg fun hna => hn (by simp [ha, k, hna])
      simp [hp, r]
    · rfl
  | case3 m atParameter hl =>
    rw [topLevel, if_neg hl]
    split <;> simp [propertyAt_of_le (not_lt.1 hl)]

variable (s) in
structure HasBody (hi k : Nat) : Prop where
  keyword : (s.tok k).isWord "constructor" = true
  list : (s.tok (k + 1)).isPunct "(" = true
  body : (s.tok (s.close hi (k + 1) + 1)).isPunct openBrace = true
  reach : s.close hi (k + 1) + 1 < hi

variable (s) in
def propertyNames (hi k : Nat) : List String :=
  (s.parameterStarts (s.close hi (k + 1)) (k + 2)).filterMap (s.propertyAt (s.close hi (k + 1)))

variable (s) in
/-- Behind the first call of `super`, or else behind the brace that opens the body. -/
def assignmentPlace (hi k : Nat) : Nat :=
  let body := s.close hi (k + 1) + 1
  let bodyEnd := s.close hi body
  match (s.topLevel bodyEnd (body + 1)).find? (s.callsSuper (body + 1)) with
  | some call => (s.tok (s.statementEnd bodyEnd call - 1)).stop
  | none => (s.tok body).stop

def assignments (indent : String) (names : List String) : String :=
  String.join (names.map fun name => "\n" ++ indent ++ "this." ++ name ++ " = " ++ name ++ ";")

variable (s) in
/-- The edits assign the properties of the constructor at `k`. -/
def Assigns (hi k : Nat) (edits : List Edit) : Prop :=
  ∃ indent ending : String, indent.toList.all isBlank = true ∧ ending.toList.all isBlank = true ∧
    edits = if (s.propertyNames hi k).isEmpty then []
      else [⟨s.assignmentPlace hi k, s.assignmentPlace hi k, assignments indent (s.propertyNames hi k) ++ ending⟩]

lemma all_isBlank_indentAt (off : Nat) : (s.indentAt off).toList.all isBlank := by
  rw [indentAt, toList_ofList]
  exact all_takeWhile

lemma is_of_isPunct {j : Nat} {x : String} (h : (s.tok j).isPunct x) : s.is j x := by
  simp only [Token.isPunct, and_eq_true] at h
  simp [is, h.1, h.2]

section

variable {hi k : Nat} (h : s.HasBody hi k)

include h

lemma assigns_parameterProperties : s.Assigns hi k (s.parameterProperties hi (k + 1)) := by
  have hn : s.propertyNamesFrom (s.close hi (k + 1)) (k + 1 + 1) true = s.propertyNames hi k := propertyNamesFrom_eq _ _ _
  have hc : (decide (hi ≤ s.close hi (k + 1) + 1) || !s.is (s.close hi (k + 1) + 1) openBrace) = false := by
    rw [is_of_isPunct h.body]
    simpa using h.reach
  have he : ∀ (b : Bool) (off : Nat), (if b then "\n" ++ s.indentAt off else "").toList.all isBlank := by
    intro b off
    cases b with
    | true =>
      rw [if_pos rfl, toList_append, all_append, all_isBlank_indentAt, Bool.and_true]
      decide
    | false => rfl
  have hd : ∀ off, (s.indentAt off ++ "  ").toList.all isBlank := by
    intro off
    rw [toList_append, all_append, all_isBlank_indentAt, Bool.true_and]
    decide
  unfold parameterProperties propertyAnchor
  simp only [hn, superCallFrom_eq, Bool.or_assoc, hc, Bool.or_false]
  by_cases hem : (s.propertyNames hi k).isEmpty
  · exact ⟨"", "", rfl, rfl, by rw [if_pos hem, if_pos hem]⟩
  · rw [if_neg hem]
    unfold Assigns assignmentPlace
    simp only [if_neg hem]
    cases (s.topLevel (s.close hi (s.close hi (k + 1) + 1)) (s.close hi (k + 1) + 1 + 1)).find?
        (s.callsSuper (s.close hi (k + 1) + 1 + 1)) with
    | some call => exact ⟨_, _, all_isBlank_indentAt _, he _ _, rfl⟩
    | none =>
      dsimp only
      split
      · exact ⟨_, _, all_isBlank_indentAt _, he _ _, rfl⟩
      · exact ⟨_, _, hd _, he _ _, rfl⟩

lemma HasBody.word : (s.tok k).kind = .word ∧ (s.tok k).text = "constructor" := by
  simpa [Token.isWord] using h.keyword

lemma HasBody.lt : k + 1 < hi := by
  have hc := s.le_close hi (k + 1)
  have hr := h.reach
  omega

lemma HasBody.not_memberNameLike : s.memberNameLike (k + 1) = false := by
  obtain ⟨hk, ht⟩ : (s.tok (k + 1)).kind = .punct ∧ (s.tok (k + 1)).text = "(" := by
    simpa [Token.isPunct] using h.list
  simp [memberNameLike, hk, ht]

lemma stripMemberModifiers_constructor : s.stripMemberModifiers hi k = ([], k) := by
  rw [stripMemberModifiers, if_neg]
  rintro ⟨-, hn, -⟩
  rw [h.not_memberNameLike] at hn
  cases hn

lemma skipMemberModifiers_constructor (dropped : Bool) : s.skipMemberModifiers hi k dropped = (k, dropped) := by
  rw [skipMemberModifiers, if_neg]
  rintro ⟨-, -, -, hn⟩
  rw [h.not_memberNameLike] at hn
  cases hn

end

lemma exists_skipMemberModifiers {hi j k : Nat} (hs : (s.stripMemberModifiers hi j).2 = k)
    (h : s.HasBody hi k) (dropped : Bool) : s.is j "[" = false ∧
      ∃ dropped', s.skipMemberModifiers hi j dropped = (k, dropped') := by
  have hp : ∀ {j : Nat}, j + 1 < hi ∧ s.memberNameLike (j + 1) ∧ s.isWord j → memberModifiers.contains (s.tok j).text →
      (∀ dropped, ∃ dropped', s.skipMemberModifiers hi (j + 1) dropped = (k, dropped')) →
      ∀ dropped, s.is j "[" = false ∧ ∃ dropped', s.skipMemberModifiers hi j dropped = (k, dropped') := by
    intro j hm hmo hmr dropped
    constructor
    · have hn : (s.tok j).text ≠ "[" := by
        rintro heq
        rw [heq] at hmo
        revert hmo
        decide
      simp [is, hn]
    · rw [skipMemberModifiers, if_pos ⟨hm.1, hm.2.2, hmo, hm.2.1⟩]
      exact hmr _
  have hse : ∀ dropped, s.is k "[" = false ∧ ∃ dropped', s.skipMemberModifiers hi k dropped = (k, dropped') := by
    intro dropped
    exact ⟨by simp [is, h.word.2], dropped, skipMemberModifiers_constructor h dropped⟩
  fun_induction stripMemberModifiers s hi j generalizing dropped with
  | case1 j hm t ha es next hr ih =>
    rw [hr] at ih
    refine hp hm ?_ (fun dropped => (ih hs dropped).2) dropped
    rw [memberModifiers, contains_iff_mem, mem_append, ← contains_iff_mem]
    exact .inl ha
  | case2 j hm t ha ho ih =>
    refine hp hm ?_ (fun dropped => (ih hs dropped).2) dropped
    rw [memberModifiers, contains_iff_mem, mem_append]
    simp only [contains_iff_mem, mem_cons, not_mem_nil, or_false] at ho ⊢
    tauto
  | case3 j hm t ha ho | case4 j hm =>
    obtain rfl : j = k := hs
    exact hse dropped

lemma memberDeclaration_constructor {hi j k : Nat} (hs : (s.stripMemberModifiers hi j).2 = k)
    (h : s.HasBody hi k) : s.memberDeclaration hi j = .ok none := by
  obtain ⟨hb, dropped, hsk⟩ := exists_skipMemberModifiers hs h false
  have hn : s.memberNameLike k := by simp [memberNameLike, h.word.1]
  have hst : s.is k "*" = false := by simp [is, h.word.2]
  have ho : s.is k "[" = false := by simp [is, h.word.2]
  have hl : (s.tok (k + 1)).text = "(" := by
    have := h.list
    simp only [Token.isPunct, and_eq_true, beq_iff_eq] at this
    exact this.2
  have hbo : s.bodilessEnd hi (k + 1) = .ok none := by
    have ht : (s.tok (s.close hi (k + 1) + 1)).text = openBrace := by
      have := h.body
      simp only [Token.isPunct, and_eq_true, beq_iff_eq] at this
      exact this.2
    have hc : s.is (s.close hi (k + 1) + 1) ":" = false := by simp [is, ht, openBrace]
    simp only [bodilessEnd, hc, Bool.and_false, false_eq_true, if_false, pure_bind, is_of_isPunct h.body,
      h.reach, decide_true, Bool.and_self, if_true]
    rfl
  have hm : s.isAny (k + 1) ["?", "!"] = false := by simp [isAny, is, hl]
  have ha : s.is (k + 1) "<" = false := by simp [is, hl]
  unfold memberDeclaration
  simp only [hb, Bool.false_and, hsk, hst, ho, hn, hm, ha, Bool.and_false, Bool.or_true,
    Bool.not_true, false_eq_true, if_false, is_of_isPunct h.list, h.lt, decide_true, Bool.and_self, if_true, hbo]
  rfl

section

variable {erase : String → Except Fault String} {hi k : Nat} (h : s.HasBody hi k) (p : Progress)

include h

lemma tokenStep_constructor : s.tokenStep erase .classBody p hi k = .ok (s.keep p k) := by
  obtain ⟨hk, ht⟩ := h.word
  have hc : (s.tok k).isWord "class" = false := by simp [Token.isWord, ht]
  have hb : ["var", "let", "const"].contains (s.tok k).text = false := by rw [ht]; decide
  have ha : ["as", "satisfies"].contains (s.tok k).text = false := by rw [ht]; decide
  have hf : (Frame.classBody == Frame.specifiers) = false ∧ (Frame.classBody == Frame.paren) = false := by decide
  simp only [tokenStep, hc, hf.1, Bool.false_and, false_eq_true, if_false, hk, wordStep, hb, ha, hf.2, Bool.and_false]
  rfl

lemma memberStep_constructor :
    s.memberStep erase p hi k = .ok { s.keep p k with edits := s.parameterProperties hi (k + 1) } := by
  have hs := stripMemberModifiers_constructor h
  have hk : s.is k "constructor" := by simp [is, h.word.1, h.word.2]
  refine bind_eq_ok.2 ⟨none, memberDeclaration_constructor (congrArg Prod.snd hs) h, ?_⟩
  simp only [hs, bne_self_eq_false, false_eq_true, if_false]
  refine bind_eq_ok.2 ⟨_, tokenStep_constructor h p, ?_⟩
  simp only [hk, is_of_isPunct h.list, Bool.and_self, if_true, keep, append_nil]
  rfl

end

variable (s) in
/-- It shows that a member starts with the word at `k`: nothing stands before it, a semicolon, a closing brace, or a line
break behind a token that can end a member. -/
def opensMember (k : Nat) (last : Option Token) : Bool :=
  last.all fun t => t.isOneOf [";", closeBrace] || s.breakBefore k && t.canEndStatement

lemma startsStatement_constructor {hi k : Nat} (h : s.HasBody hi k) (last : Option Token) :
    s.startsStatement k last = s.opensMember k last := by
  obtain ⟨hk, hte⟩ := h.word
  have hc : (s.tok k).continuesExpression = false := by
    simp [Token.continuesExpression, hk, hte, continuingWords]
  cases last with
  | none => rfl
  | some t =>
    have ht : [";", closeBrace].contains t.text = (t.text == ";" || t.text == closeBrace) := by
      simp [Bool.beq_eq_decide_eq]
    simp only [startsStatement, opensMember, all_some, isOneOf, ht, hc, Bool.not_false, Bool.and_true]

variable {erase : String → Except Fault String} {c : Site} {move : Move}

section

variable (hs : s.stepAt erase c = .ok move) (hf : c.frame = .classBody) (hh : c.progress.heritage = false)

include hs hf hh

lemma edits_of_stepAt_constructor (h : s.HasBody c.hi c.pos) :
    move.edits = if s.opensMember c.pos c.progress.last then s.parameterProperties c.hi (c.pos + 1) else [] := by
  have hc : (Frame.classBody == Frame.block) = false := by decide
  rw [← startsStatement_constructor h]
  simp only [stepAt, step, hh, false_eq_true, if_false, hf, hc, Bool.false_or, beq_self_eq_true, Bool.true_and] at hs
  split at hs
  · rename_i hst
    rw [memberStep_constructor h] at hs
    cases hs
    rw [if_pos hst]
  · rename_i hst
    rw [tokenStep_constructor h] at hs
    cases hs
    rw [if_neg hst]
    rfl

lemma onward_modifiers (hsa : s.startsStatement c.pos c.progress.last)
    {k : Nat} (hst : (s.stripMemberModifiers c.hi c.pos).2 = k) (hn : k ≠ c.pos) (h : s.HasBody c.hi k) :
    (c.onward move).pos = k ∧ (c.onward move).progress.last = c.progress.last ∧
      (c.onward move).progress.heritage = false := by
  have hc : (Frame.classBody == Frame.block) = false := by decide
  simp only [stepAt, step, hh, false_eq_true, if_false, hf, hc, Bool.false_or, beq_self_eq_true,
    Bool.true_and, hsa, if_true] at hs
  have hm : ((s.stripMemberModifiers c.hi c.pos).2 != c.pos) := by simpa [hst] using hn
  obtain ⟨declared, hd, hs⟩ := bind_eq_ok.1 hs
  obtain rfl := ok.inj ((memberDeclaration_constructor hst h).symm.trans hd)
  simp only [hm, if_true] at hs
  cases hs
  have hl := s.le_stripMemberModifiers c.hi c.pos
  refine ⟨?_, rfl, rfl⟩
  simp only [Site.onward]
  omega

end

variable (s) in
/-- The word at `k` is what stands at the site, or what stands there behind the modifiers of a member. -/
def Announces (c : Site) (k : Nat) : Prop :=
  k = c.pos ∨ s.startsStatement c.pos c.progress.last = true ∧ k = (s.stripMemberModifiers c.hi c.pos).2

/-- **What a walk does for a constructor.** It visits the keyword, and puts the assignments in there if a member is seen
to start with it. -/
lemma Visits.exists_constructor {root : Site} {visits : List (Site × Move)} (hv : s.Visits erase root visits)
    (hm : (c, move) ∈ visits) (hf : c.frame = .classBody) (hh : c.progress.heritage = false) {k : Nat}
    (hk : s.Announces c k) (h : s.HasBody c.hi k) : ∃ d move', (d, move') ∈ visits ∧ d.pos = k ∧
      if s.opensMember k c.progress.last then s.Assigns c.hi k move'.edits else move'.edits = [] := by
  obtain ⟨hr, ho, hs⟩ := hv.mem_iff.1 hm
  -- The decision at a site in this class body before the keyword, with this token in mind.
  have hd : ∀ {d move'}, (d, move') ∈ visits → d.frame = .classBody → d.hi = c.hi → d.pos = k →
      d.progress.last = c.progress.last → d.progress.heritage = false →
      if s.opensMember k c.progress.last then s.Assigns c.hi k move'.edits else move'.edits = [] := by
    rintro d move' hm' hf' hhi rfl hl hh'
    obtain ⟨-, -, hs'⟩ := hv.mem_iff.1 hm'
    have he := edits_of_stepAt_constructor hs' hf' hh' (hhi.symm ▸ h)
    rw [hl, hhi] at he
    rw [he]
    split
    · exact assigns_parameterProperties h
    · rfl
  by_cases hp : k = c.pos
  · exact ⟨c, move, hm, hp.symm, hd hm hf rfl hp.symm rfl hh⟩
  · obtain ⟨hst, hsr⟩ := hk.resolve_left hp
    obtain ⟨hn, hl, hh'⟩ := onward_modifiers hs hf hh hst hsr.symm hp h
    have hr' : s.Reaches erase root (c.onward move) := Relation.ReflTransGen.tail hr (.onward ho hs)
    have ho' : (c.onward move).Open := by
      have hlt := h.lt
      rw [Site.Open, hn]
      exact Nat.lt_of_succ_lt hlt
    obtain ⟨move', hm'⟩ := hv.exists_mem hr' ho'
    exact ⟨_, move', hm', hn, hd hm' hf rfl hn hl hh'⟩

end Stream

/-- **When parameter properties are assigned.** A walk decides once about every token. For a constructor with a body it
puts in the assignments of the properties, if nothing kept stands before the keyword in the class, or a semicolon or a
closing brace, or a line break and a token that can end a member. Otherwise it puts in nothing. -/
theorem stripTypes_assigns {grammar : Grammar} {source out : String} (h : stripTypes grammar source = .ok out) :
    ∃ s visits, Stream.read source = .ok s ∧ s.Visits (eraseExpression source.length) s.start visits ∧
      visits.Pairwise (fun v w => v.1.pos < w.1.pos) ∧ out = applyEdits source (visits.flatMap (·.2.edits)) ∧
      ∀ c move k, (c, move) ∈ visits → c.frame = .classBody → c.progress.heritage = false → s.Announces c k →
        s.HasBody c.hi k → ∃ d move', (d, move') ∈ visits ∧ d.pos = k ∧
          if s.opensMember k c.progress.last then s.Assigns c.hi k move'.edits else move'.edits = [] := by
  obtain ⟨-, ⟨edits, hedits, rfl⟩, -⟩ := stripTypes_eq_ok_iff.1 h
  obtain ⟨s, hs, hscan⟩ := typeEdits_eq_ok_iff.1 hedits
  obtain ⟨visits, hvisits, rfl⟩ := Stream.scanAt_eq_ok_iff_visits.1 hscan
  refine ⟨s, visits, hs, hvisits, hvisits.pairwise (Stream.placed_start hs), rfl, ?_⟩
  exact fun c move k hmem hframe hheritage hk hbody => hvisits.exists_constructor hmem hframe hheritage hk hbody

def modifiedConstructor : String := "class A\x7bx=1\npublic constructor(private y)\x7b\x7d\x7d"

lemma stripTypes_modifiedConstructor : stripTypes ⟨fun _ => true, fun _ => true⟩ modifiedConstructor =
    .ok "class A\x7bx=1\nconstructor(y)\x7b\x7d\x7d" :=
  stripTypes_eq_ok_iff.2 ⟨rfl, ⟨_, by cbv, by cbv⟩, rfl⟩

lemma exists_site_modifiedConstructor : ∃ s, Stream.read modifiedConstructor = .ok s ∧
    s.propertyNames 14 7 = ["y"] ∧ s.HasBody 14 7 ∧ ∃ c,
      s.Reaches (eraseExpression modifiedConstructor.length) s.start c ∧ c.Open ∧ c.frame = .classBody ∧
      c.progress.heritage = false ∧ c.hi = 14 ∧ s.Announces c 7 ∧ s.opensMember 7 c.progress.last = false := by
  refine ⟨_, by cbv, by cbv, ⟨by cbv, by cbv, by cbv, by cbv⟩,
    ⟨.classBody, { last := some ⟨.number, "1", 10⟩, first := some ⟨.word, "x", 8⟩ }, 14, 6⟩, ?_, ?_⟩
  · refine .head (.inside (by cbv) (by cbv) rfl) ?_
    refine .head (.onward (by cbv) (by cbv)) ?_
    refine .head (.onward (by cbv) (by cbv)) ?_
    refine .head (.onward (by cbv) (by cbv)) ?_
    exact .refl _
  · exact ⟨by cbv, by cbv, by cbv, by cbv, .inr ⟨by cbv, by cbv⟩, by cbv⟩

theorem stripTypes_assigns_modified : ∃ s visits d move,
    stripTypes ⟨fun _ => true, fun _ => true⟩ modifiedConstructor =
        .ok "class A\x7bx=1\nconstructor(y)\x7b\x7d\x7d" ∧
      Stream.read modifiedConstructor = .ok s ∧
      s.Visits (eraseExpression modifiedConstructor.length) s.start visits ∧ s.propertyNames 14 7 = ["y"] ∧
      (d, move) ∈ visits ∧ d.pos = 7 ∧ move.edits = [] := by
  obtain ⟨s, hs, hnames, hbody, c, hreach, hopen, hframe, hheritage, hhi, hk, hnone⟩ := exists_site_modifiedConstructor
  obtain ⟨s', visits, hs', hvisits, -, -, hall⟩ := stripTypes_assigns stripTypes_modifiedConstructor
  obtain rfl := ok.inj (hs.symm.trans hs')
  obtain ⟨move, hmem⟩ := hvisits.exists_mem hreach hopen
  obtain ⟨d, move', hmem', hd, hedits⟩ := hall c move 7 hmem hframe hheritage hk (hhi.symm ▸ hbody)
  rw [hnone] at hedits
  exact ⟨s, visits, d, move', stripTypes_modifiedConstructor, hs, hvisits, hnames, hmem', hd, hedits⟩

end CustomElement.Script
