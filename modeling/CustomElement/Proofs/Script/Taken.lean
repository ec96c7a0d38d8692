import CustomElement.Proofs.Script.Fusion

/-!
# What is taken for types

`Stream.takes` says where the walk finds types in a script without opening angles. There the decision calls for an edit
or fails, and nowhere else.
-/

namespace CustomElement.Script

open List Text

variable {taken : Bool} {frame : Frame} {hi j : Nat} {p : Progress} {c : Site} {decision : Except Fault Move}

lemma remove_ne_nil {st stop : Nat} (h : st < stop) : Edit.remove st stop ≠ [] := by
  simp [Edit.remove, h]

namespace Stream

section Order

variable {source : String} {s : Stream} (h : Stream.read source = .ok s) {i k : Nat}

include h

lemma removeTokens_ne_nil (hi : i < s.size) (hik : i < k) : s.removeTokens i k ≠ [] := by
  rw [removeTokens, if_pos hik]
  exact remove_ne_nil (start_lt_stop_of_le h hi (by omega))

lemma removeInline_ne_nil (hi : i < s.size) (hik : i < k) : s.removeInline i k ≠ [] := by
  rw [removeInline, if_pos hik]
  have hl := start_lt_stop_of_le h hi (show i ≤ k - 1 by omega)
  refine remove_ne_nil ?_
  split
  · rename_i hb
    have hp : 0 < i := by simpa using (and_eq_true_iff.1 hb).1
    exact (stop_le_start h (show i - 1 < i by omega)).trans_lt hl
  · exact hl

end Order

section Takes

variable (s : Stream)

def bodiless (hi m : Nat) : Bool :=
  match s.bodilessEnd hi m with
  | .ok none => false
  | _ => true

def overloads (exported : Bool) (k hi : Nat) : Bool :=
  let a := if exported && s.is k "default" then k + 1 else k
  let b := if s.is a "async" then a + 1 else a
  let c := if s.is (b + 1) "*" then b + 2 else b + 1
  let d := if s.isWord c then c + 1 else c
  s.is b "function" && (d < hi && s.is d "(") && s.bodiless hi d

def declaresAt (exported : Bool) (k hi : Nat) : Bool :=
  exported && s.is k "=" || exported && s.is k "type" && s.isAny (k + 1) [openBrace, "*"] ||
    s.is k "declare" && s.isWord (k + 1) && !s.breakBefore (k + 1) ||
    s.is k "interface" && s.isWord (k + 1) && !s.breakBefore (k + 1) ||
    s.is k "type" && s.isWord (k + 1) && s.isAny (k + 2) ["=", "<"] ||
    (s.is k "enum" && s.isWord (k + 1) || s.is k "const" && s.is (k + 1) "enum") ||
    s.isAny k ["namespace", "module"] && ((s.tok (k + 1)).kind == .word || (s.tok (k + 1)).kind == .string) &&
      !s.breakBefore (k + 1) ||
    s.is k "abstract" && s.is (k + 1) "class" || s.overloads exported k hi

def declares (hi first : Nat) : Bool :=
  let exported := s.is first "export"
  let k := if exported then first + 1 else first
  k < hi &&
    if s.is k "import" && !exported then
      s.is (k + 1) "type" && !s.isAny (k + 2) ["from", ",", "="] || s.isWord (k + 1) && s.is (k + 2) "="
    else s.declaresAt exported k hi

/-- The member at `j` is taken for an index signature, or for one without body or that a modifier takes out. -/
def declaresMember (hi j : Nat) : Bool :=
  if s.is j "[" && s.isWord (j + 1) && s.is (j + 2) ":" then true
  else
    let (m, dropped) := s.skipMemberModifiers hi j false
    let nameAt := if s.is m "*" then m + 1 else m
    let nameEnd := if s.is nameAt "[" then s.close hi nameAt + 1 else nameAt + 1
    let marked := if nameEnd < hi && s.isAny nameEnd ["?", "!"] then nameEnd + 1 else nameEnd
    (s.is nameAt "[" || s.memberNameLike nameAt) &&
      if marked < hi && s.is marked "(" then s.bodiless hi marked else dropped

def modified (hi j : Nat) : Bool :=
  (List.range (s.stripMemberModifiers hi j).2).any fun m => j ≤ m && accessModifiers.contains (s.tok m).text

/-- The parameter list that opens at `start` declares properties, and a body follows that can assign them. -/
def declaresProperties (hi start : Nat) : Bool :=
  let listEnd := s.close hi start
  let names := s.propertyNamesFrom listEnd (start + 1) true
  let body := listEnd + 1
  !(names.isEmpty || hi ≤ body || !s.is body openBrace)

end Takes

/-- What is taken for a declaration is taken out, rewritten or refused, and nothing else is. -/
inductive Decides : Bool → Except Fault (Option (List Edit × Nat)) → Prop
  | none : Decides false (.ok none)
  | some {edits : List Edit} {next : Nat} (h : edits ≠ []) : Decides true (.ok (some (edits, next)))
  | error (fault : Fault) : Decides true (.error fault)

section Declarations

variable {s : Stream} {erase : String → Except Fault String} {source : String} (hs : Stream.read source = .ok s)

lemma Decides.of_eq_true {outcome : Except Fault (Option (List Edit × Nat))} (ht : taken)
    (h : Decides true outcome) : Decides taken outcome := ht ▸ h

lemma decides_lowerEnum (fst k hi : Nat) : Decides true (some <$> s.lowerEnum erase fst k hi) := by
  rcases hl : s.lowerEnum erase fst k hi with fault | ⟨es, next⟩
  · exact .error fault
  · refine .some ?_
    unfold lowerEnum at hl
    extract_lets nameAt bodyAt at hl
    split at hl
    · cases hl
    · obtain ⟨ls, -, hl⟩ := bind_eq_ok.1 hl
      obtain ⟨rfl, -⟩ := Prod.mk.inj (ok.inj hl)
      exact cons_ne_nil _ _

include hs

lemma decides_dropTo {lo : Nat} (hl : lo < s.size) (hlt : lo < hi) : Decides true (.ok (s.dropTo lo hi)) :=
  .some (removeTokens_ne_nil hs hl hlt)

lemma decides_signature {fst m : Nat} (hf : fst < s.size) (hm : fst ≤ m) :
    Decides (s.bodiless hi m) (s.bodilessEnd hi m >>= fun stop? =>
      match stop? with
      | .some stop => pure (s.dropTo fst stop)
      | .none => pure .none) := by
  unfold bodiless
  rcases he : s.bodilessEnd hi m with fault | stop?
  · exact .error fault
  · cases stop? with
    | none => exact .none
    | some stop => exact decides_dropTo hs hf (hm.trans_lt (s.lt_bodilessEnd he))

lemma decides_overload (ha : ∀ j, s.is j "<" = false) {exported : Bool} {fst k : Nat} (hf : fst < s.size) (hk : fst ≤ k) :
    Decides (s.overloads exported k hi) (s.overload exported fst k hi) := by
  unfold overload overloads
  extract_lets a b c d params?
  have hd : fst ≤ d := by grind
  have hp : params? = some d := by simp only [params?, ha d, false_eq_true, if_false]
  rw [hp]
  cases hw : s.is b "function" with
  | false => exact .none
  | true =>
    rw [if_pos rfl, Bool.true_and]
    cases hl : (decide (d < hi) && s.is d "(") with
    | false =>
      dsimp only
      rw [hl]
      exact .none
    | true =>
      dsimp only
      rw [hl, Bool.true_and, if_pos rfl]
      exact decides_signature hs hf hd

lemma decides_typeAlias {fst k : Nat} (hf : fst < s.size) (hk : fst ≤ k) : Decides true (s.typeAlias fst k hi) := by
  unfold typeAlias
  extract_lets jp
  have hj : ∀ m, fst ≤ m → Decides true (jp m) := by
    intro m hm
    simp only [jp]
    split
    · rcases s.typeEnd hi (m + 1) with fault | stop
      · exact .error fault
      · have hp := s.le_pastSemicolon hi stop.1
        have hst := stop.2
        exact decides_dropTo hs hf (by omega)
    · exact .error _
  split
  · split
    · rename_i angle _
      have ha := angle.2
      exact hj _ (by omega)
    · exact .error _
  · exact hj _ (by omega)

lemma decides_declaration (han : ∀ j, s.is j "<" = false) {fst : Nat} (hh : hi ≤ s.size) :
    Decides (s.declares hi fst) (s.declaration erase hi fst) := by
  unfold declaration declares
  extract_lets exported k
  have hk : fst ≤ k := by grind
  by_cases hed : hi ≤ k
  · rw [if_pos hed, decide_eq_false (by omega), Bool.false_and]
    exact .none
  rw [if_neg hed, decide_eq_true (by omega), Bool.true_and]
  have hf : fst < s.size := by omega
  have hst : fst < s.statementEnd hi k := by
    have hl := s.lt_statementEnd (Nat.lt_of_not_le hed) le_rfl
    omega
  by_cases he : (exported && s.is k "=")
  · rw [if_pos he]
    exact .of_eq_true (by simp [declaresAt, and_eq_true_iff.1 he]) (.error _)
  rw [if_neg he]
  by_cases him : (s.is k "import" && !exported)
  · rw [if_pos him, if_pos him]
    by_cases ht : (s.is (k + 1) "type" && !s.isAny (k + 2) ["from", ",", "="])
    · rw [if_pos ht, ht, Bool.true_or]
      exact decides_dropTo hs hf hst
    rw [if_neg ht, eq_false_iff.2 ht, Bool.false_or]
    split
    · rename_i has
      rw [has]
      exact .error _
    · rename_i has
      rw [eq_false_iff.2 has]
      exact .none
  rw [if_neg him, if_neg him]
  unfold declaresAt
  rw [eq_false_iff.2 he, Bool.false_or]
  by_cases ht : (exported && s.is k "type" && s.isAny (k + 1) [openBrace, "*"])
  · rw [if_pos ht]
    exact .of_eq_true (by simp only [ht, Bool.true_or]) (decides_dropTo hs hf hst)
  rw [if_neg ht, eq_false_iff.2 ht, Bool.false_or]
  by_cases ham : (s.is k "declare" && s.isWord (k + 1) && !s.breakBefore (k + 1))
  · have hl : fst < s.ambientEndFrom hi (k + 1) (k + 1) :=
      hk.trans_lt (s.lt_ambientEndFrom (Nat.lt_of_not_le hed) (Nat.le_succ k) le_rfl)
    rw [if_pos ham]
    exact .of_eq_true (by simp only [ham, Bool.true_or]) (decides_dropTo hs hf hl)
  rw [if_neg ham, eq_false_iff.2 ham, Bool.false_or]
  by_cases hin : (s.is k "interface" && s.isWord (k + 1) && !s.breakBefore (k + 1))
  · rw [if_pos hin]
    refine .of_eq_true (by simp only [hin, Bool.true_or]) ?_
    split
    · rename_i body hb
      have hle := s.le_interfaceBody hb
      have hc := s.le_close hi body
      exact decides_dropTo hs hf (by omega)
    · exact .error _
  rw [if_neg hin, eq_false_iff.2 hin, Bool.false_or]
  by_cases hal : (s.is k "type" && s.isWord (k + 1) && s.isAny (k + 2) ["=", "<"])
  · rw [if_pos hal]
    exact .of_eq_true (by simp only [hal, Bool.true_or]) (decides_typeAlias hs hf hk)
  rw [if_neg hal, eq_false_iff.2 hal, Bool.false_or]
  by_cases hen : (s.is k "enum" && s.isWord (k + 1) || s.is k "const" && s.is (k + 1) "enum")
  · rw [if_pos hen]
    exact .of_eq_true (by simp only [hen, Bool.true_or]) (decides_lowerEnum fst k hi)
  rw [if_neg hen, eq_false_iff.2 hen, Bool.false_or]
  by_cases hn : (s.isAny k ["namespace", "module"] &&
      ((s.tok (k + 1)).kind == .word || (s.tok (k + 1)).kind == .string) && !s.breakBefore (k + 1))
  · rw [if_pos hn]
    exact .of_eq_true (by simp only [hn, Bool.true_or]) (.error _)
  rw [if_neg hn, eq_false_iff.2 hn, Bool.false_or]
  by_cases ha : (s.is k "abstract" && s.is (k + 1) "class")
  · rw [if_pos ha]
    exact .of_eq_true (by simp only [ha, Bool.true_or])
      (.some (remove_ne_nil (start_lt_start hs (by omega) (lt_succ_self k))))
  rw [if_neg ha, eq_false_iff.2 ha, Bool.false_or]
  exact decides_overload hs han hf hk

lemma decides_memberDeclaration (ha : ∀ j, s.is j "<" = false) (hj : j < s.size) (hh : j < hi) :
    Decides (s.declaresMember hi j) (s.memberDeclaration hi j) := by
  unfold memberDeclaration declaresMember
  by_cases hin : (s.is j "[" && s.isWord (j + 1) && s.is (j + 2) ":")
  · rw [if_pos hin, if_pos hin]
    extract_lets listEnd jp
    have hjp : ∀ stop, j < stop → Decides true (jp stop) := by
      intro stop hst
      have hpa := s.le_pastSemicolon hi stop
      exact decides_dropTo hs hj (by omega)
    have hc := s.le_close hi j
    split
    · rcases s.typeEnd hi (listEnd + 1) with fault | stop
      · exact .error fault
      · have hst := stop.2
        exact hjp stop.1 (by omega)
    · exact hjp listEnd (by omega)
  rw [if_neg hin, if_neg hin]
  have hm := s.le_skipMemberModifiers hi j false
  generalize s.skipMemberModifiers hi j false = skipped at hm ⊢
  obtain ⟨m, dropped⟩ := skipped
  dsimp -zeta only at hm ⊢
  extract_lets nameAt nameEnd marked params?
  have hma : j ≤ marked := by
    have hc := s.le_close hi nameAt
    grind
  have hp : params? = some marked := by
    simp only [params?, ha marked, Bool.and_false, false_eq_true, if_false]
  rw [hp]
  cases hn : s.is nameAt "[" || s.memberNameLike nameAt with
  | false => exact .none
  | true =>
    rw [Bool.true_and, Bool.not_true, if_neg Bool.false_ne_true]
    dsimp only
    by_cases hl : (decide (marked < hi) && s.is marked "(")
    · rw [if_pos hl, if_pos hl]
      exact decides_signature hs hj hma
    · rw [if_neg hl, if_neg hl]
      cases dropped with
      | false => exact .none
      | true => exact decides_dropTo hs hj (s.lt_statementEnd hh (by omega))

end Declarations

section Takes

variable (s : Stream) (erase : String → Except Fault String)

def implementsAt (hi m : Nat) : Bool := m < hi && s.is m "implements" && s.implementsEnd hi (m + 1) < hi

def classAt (p : Progress) (j : Nat) : Bool :=
  let afterPoint := p.last.any fun q => q.isOneOf [".", "?."]
  (s.tok j).isWord "class" && !afterPoint && !s.isAny (j + 1) [":", "(", "="]

/-- The word at `j` is taken for an assertion operator, for the type of the receiver, or for the modifier of a parameter. -/
def wordTakes (frame : Frame) (p : Progress) (hi j : Nat) : Bool :=
  let t := s.tok j
  let follower := s.tok (j + 1)
  ["as", "satisfies"].contains t.text && s.isAssertion frame p hi j ||
    t.text == "this" && frame == .paren && p.last.isNone && s.is (j + 1) ":" ||
    frame == .paren && accessModifiers.contains t.text && p.last.all (fun q => q.isOneOf [","]) &&
      (follower.kind == .word || follower.isPunct openBrace || follower.isPunct "[")

/-- A colon is taken for an annotation: no conditional waits for it, it ends no label, and something that can have a type
stands before it. -/
def annotates (frame : Frame) (p : Progress) : Bool :=
  let afterParen := p.last.any fun q => q.isOneOf [")"]
  p.ternary == 0 && !p.caseLabel &&
    match frame with
    | .paren | .classBody => true
    | .object => afterParen
    | .block => afterParen || p.binding == Binding.name
    | .bracket | .specifiers => false

/-- The mark at `j` is taken for that of an optional name, an annotation or a non-null value. -/
def markTakes (frame : Frame) (p : Progress) (hi j : Nat) : Bool :=
  let t := s.tok j
  t.text == "?" && (s.isAny (j + 1) [":", ",", ")", ";"] ||
      (frame == .classBody && (s.is (j + 1) "(" || hi ≤ j + 1 || s.breakBefore (j + 1)))) ||
    t.text == ":" && annotates frame p ||
    t.text == "!" && p.last.any fun q => q.stop == t.start && q.endsExpression

def templateTakes (t : Token) : Bool :=
  hasInterpolation t.text.toList &&
    match substitutionEdits erase t with
    | .ok [] => false
    | _ => true

/-- The token at `j` is taken for one that belongs to a type, where it begins no declaration. -/
def tokenTakes (frame : Frame) (p : Progress) (hi j : Nat) : Bool :=
  let t := s.tok j
  if s.classAt p j then
    s.implementsAt hi (if s.isWord (j + 1) && !s.isAny (j + 1) ["extends", "implements"] then j + 2 else j + 1)
  else
    frame == .specifiers && t.isWord "type" && s.isWord (j + 1) && !s.is (j + 1) "as" ||
      match t.kind with
      | .word => s.wordTakes frame p hi j
      | .punct => s.markTakes frame p hi j
      | .template => templateTakes erase t
      | _ => false

def begins (c : Site) : Bool :=
  (c.frame == .block || c.frame == .classBody) && s.startsStatement c.pos c.progress.last

def outset (c : Site) : Progress :=
  { c.progress with
    ternary := 0, binding := .outside, first := some (s.tok c.pos)
    caseLabel := c.frame == .block && s.isAny c.pos ["case", "default"] }

/-- The walk finds types at a site. -/
def takes (c : Site) : Bool :=
  if c.progress.heritage then s.implementsAt c.hi c.pos
  else if s.begins c then
    c.frame == .block && s.declares c.hi c.pos ||
      c.frame == .classBody && (s.declaresMember c.hi c.pos || s.modified c.hi c.pos ||
        s.is c.pos "constructor" && s.is (c.pos + 1) "(" && s.declaresProperties c.hi (c.pos + 1)) ||
      s.tokenTakes erase c.frame (s.outset c) c.hi c.pos
  else s.tokenTakes erase c.frame c.progress c.hi c.pos

end Takes

/-- Where something is taken for a type, the decision calls for an edit or fails, and nowhere else. -/
inductive Settles : Bool → Except Fault Move → Prop
  | quiet {move : Move} (h : move.edits = []) : Settles false (.ok move)
  | edits {move : Move} (h : move.edits ≠ []) : Settles true (.ok move)
  | error (fault : Fault) : Settles true (.error fault)

section Decisions

variable {s : Stream} {erase : String → Except Fault String} {source : String} (hs : Stream.read source = .ok s)

lemma Settles.of_eq_true (ht : taken) (h : Settles true decision) : Settles taken decision := ht ▸ h

lemma Settles.of_eq_false (ht : taken = false) (h : Settles false decision) : Settles taken decision := ht ▸ h

lemma settles_of_iff {move : Move} (h : move.edits = [] ↔ taken = false) : Settles taken (.ok move) := by
  cases taken with
  | false => exact .quiet (h.2 rfl)
  | true => exact .edits fun hn => by cases h.1 hn

lemma settles_keep (p : Progress) (j : Nat) : Settles false (.ok (s.keep p j)) := .quiet rfl

lemma settles_enter (frame : Frame) (p : Progress) (hi j : Nat) : Settles false (.ok (s.enter frame p hi j)) := .quiet rfl

lemma settles_template (p : Progress) (j : Nat) : Settles (templateTakes erase (s.tok j)) (do
    let edits ← if hasInterpolation (s.tok j).text.toList then substitutionEdits erase (s.tok j) else pure []
    return { s.keep p j with edits := edits }) := by
  unfold templateTakes
  cases hasInterpolation (s.tok j).text.toList with
  | false => exact .quiet rfl
  | true =>
    rw [if_pos rfl, Bool.true_and]
    rcases substitutionEdits erase (s.tok j) with fault | edits
    · exact .error fault
    · cases edits with
      | nil => exact .quiet rfl
      | cons e edits => exact .edits (cons_ne_nil e edits)

include hs

lemma settles_removeInline {stop : Nat} (hj : j < s.size) (hst : j < stop) :
    Settles true (.ok { edits := s.removeInline j stop, progress := p, next := stop }) :=
  .edits (removeInline_ne_nil hs hj hst)

lemma classTail_edits_eq_nil_iff (p : Progress) (m : Nat) (hh : hi ≤ s.size) :
    (s.classTail p hi m).edits = [] ↔ s.implementsAt hi m = false := by
  unfold classTail implementsAt
  extract_lets p' listed bodyAt edits
  have he : edits = [] ↔ (decide (m < hi) && s.is m "implements" && decide (s.implementsEnd hi (m + 1) < hi)) = false := by
    cases hl : listed with
    | false =>
      simp only [listed] at hl
      rw [hl, Bool.false_and]
      simp [edits, listed, hl]
    | true =>
      have hb : bodyAt = s.implementsEnd hi (m + 1) := by simp only [bodyAt, hl, if_true]
      have hlt := s.le_implementsEnd hi (m + 1)
      simp only [listed] at hl
      have hm : m < hi := of_decide_eq_true (and_eq_true_iff.1 hl).1
      rw [hl, Bool.true_and, ← hb]
      by_cases hen : bodyAt < hi
      · have hn : edits ≠ [] := by
          simp only [edits, listed, hl, hen, decide_true, Bool.and_true, if_true]
          exact remove_ne_nil (start_lt_start hs (by omega) (by omega))
        simp [hn, hen]
      · simp [edits, hen]
  split
  · exact he
  · exact he

omit hs in
lemma is_ne {a b : String} (h : s.is j a) (ha : a ≠ b) : s.is j b = false := by
  simp only [is, and_eq_true, beq_iff_eq] at h
  rw [is, h.2]
  simp [ha]

lemma settles_heritageStep (han : ∀ j, s.is j "<" = false) {m : Nat} (hh : hi ≤ s.size) :
    Settles (s.implementsAt hi m) (.ok (s.heritageStep p hi m)) := by
  unfold heritageStep
  split
  · exact settles_of_iff (classTail_edits_eq_nil_iff hs p m hh)
  · rename_i hc
    have ht : s.implementsAt hi m = false := by
      cases him : s.is m "implements" with
      | false => rw [implementsAt, him, Bool.and_false, Bool.false_and]
      | true => simp [isAny, him] at hc
    extract_lets arguments
    have ha : arguments = none := by simp only [arguments, han m, false_eq_true, if_false]
    rw [ht, ha]
    dsimp only
    split
    · exact settles_enter .paren p hi m
    · exact settles_keep p m

lemma settles_colonStep (hj : j < s.size) : Settles (annotates frame p) (s.colonStep frame p hi j) := by
  unfold colonStep
  by_cases ht : 0 < p.ternary
  · rw [if_pos ht]
    have hw : (p.ternary == 0) = false := by simpa using Nat.pos_iff_ne_zero.1 ht
    exact .of_eq_false (by unfold annotates; rw [hw, Bool.false_and, Bool.false_and]) (settles_keep _ j)
  rw [if_neg ht]
  by_cases hl : p.caseLabel
  · rw [if_pos hl]
    exact .of_eq_false (by unfold annotates; rw [hl, Bool.not_true, Bool.and_false, Bool.false_and]) (settles_keep _ j)
  rw [if_neg hl]
  extract_lets afterParen annotation
  have ha : annotates frame p = annotation := by
    unfold annotates
    rw [Nat.eq_zero_of_not_pos ht, eq_false_iff.2 hl]
    cases frame <;> rfl
  rw [ha]
  cases annotation with
  | false => exact settles_keep _ j
  | true =>
    rw [if_pos rfl]
    rcases s.typeEnd hi (j + 1) with fault | stop
    · exact .error fault
    · have hst := stop.2
      exact settles_removeInline hs hj (by omega)

lemma settles_punctStep (ha : ∀ j, s.is j "<" = false) (hj : j < s.size) (hk : (s.tok j).kind = .punct) :
    Settles (s.markTakes frame p hi j) (s.punctStep frame p hi j) := by
  unfold punctStep
  extract_lets t drop optional nonNull
  have hd : Settles true (.ok drop) := .edits (remove_ne_nil (start_lt_stop_tok hs hj))
  by_cases hq : t.text = "?"
  · have ht : s.markTakes frame p hi j = optional := by
      have hte : (s.tok j).text = "?" := hq
      simp [markTakes, hte, optional]
    rw [if_pos (beq_iff_eq.2 hq), ht]
    clear_value optional
    cases optional with
    | true => exact hd
    | false => exact settles_keep _ j
  rw [if_neg (by simpa using hq)]
  by_cases hc : t.text = ":"
  · have ht : s.markTakes frame p hi j = annotates frame p := by
      have hte : (s.tok j).text = ":" := hc
      simp [markTakes, hte]
    rw [if_pos (beq_iff_eq.2 hc), ht]
    exact settles_colonStep hs hj
  rw [if_neg (by simpa using hc)]
  by_cases hb : t.text = "!"
  · have ht : s.markTakes frame p hi j = nonNull := by
      have hte : (s.tok j).text = "!" := hb
      simp [markTakes, hte, nonNull, t]
    simp only [hb, ht, String.reduceBEq, false_eq_true, if_false, if_true]
    clear_value nonNull
    cases nonNull with
    | true => exact hd
    | false => exact settles_keep _ j
  have ht : s.markTakes frame p hi j = false := by
    simp only [markTakes, or_eq_false_iff, Bool.and_eq_false_iff, beq_eq_false_iff_ne]
    exact ⟨⟨.inl hq, .inl hc⟩, .inl hb⟩
  have hp : (t.text == "!") = false ∧ (t.text == "<") = false := by
    refine ⟨beq_eq_false_iff_ne.2 hb, beq_eq_false_iff_ne.2 fun hte => ?_⟩
    have ho := ha j
    simp [is, hk, show (s.tok j).text = "<" from hte] at ho
  -- None of the marks that are left is taken out.
  simp only [ht, hp, false_eq_true, if_false]
  repeat' split
  all_goals exact .quiet rfl

lemma settles_wordStep (hj : j < s.size) : Settles (s.wordTakes frame p hi j) (s.wordStep frame p hi j) := by
  unfold wordStep wordTakes
  extract_lets t follower afterPoint
  by_cases hb : (["var", "let", "const"].contains t.text && (frame == .block || frame == .paren) && !afterPoint)
  · rw [if_pos hb]
    simp only [and_eq_true] at hb
    have hw := hb.1.1
    simp only [contains_cons, contains_nil, Bool.or_false, or_eq_true, beq_iff_eq] at hw
    refine .of_eq_false ?_ (settles_keep _ j)
    rcases hw with hw | hw | hw <;> simp [hw, accessModifiers]
  rw [if_neg hb]
  by_cases ha : (["as", "satisfies"].contains t.text && s.isAssertion frame p hi j)
  · rw [if_pos ha, ha, Bool.true_or, Bool.true_or]
    rcases s.typeEnd hi (j + 1) with fault | stop
    · exact .error fault
    · have hst := stop.2
      exact settles_removeInline hs hj (by omega)
  rw [if_neg ha, eq_false_iff.2 ha, Bool.false_or]
  by_cases hr : (t.text == "this" && frame == .paren && p.last.isNone && s.is (j + 1) ":")
  · rw [if_pos hr, hr, Bool.true_or]
    rcases s.typeEnd hi (j + 2) with fault | stop
    · exact .error fault
    · have hst := stop.2
      change Settles true (ite _ _ _)
      split
      · exact .edits (remove_ne_nil (start_lt_start hs hj (by omega)))
      · exact .edits (removeTokens_ne_nil hs hj (by omega))
  rw [if_neg hr, eq_false_iff.2 hr, Bool.false_or]
  split
  · rename_i hm
    exact .of_eq_true hm (.edits (remove_ne_nil (start_lt_start hs hj (lt_succ_self j))))
  · rename_i hm
    exact .of_eq_false (eq_false_iff.2 hm) (settles_keep p j)

lemma settles_specifierStep (hj : j < s.size) (hp : ∀ t, p.last = some t → ∃ i < j, t = s.tok i) :
    Settles true (.ok (s.specifierStep p hi j)) := by
  unfold specifierStep
  extract_lets stop edits
  have hl : j < stop := by grind
  split
  · refine .edits ?_
    simp only [edits]
    split
    · exact remove_ne_nil (start_lt_start hs hj (by omega))
    · exact removeTokens_ne_nil hs hj (by omega)
  split
  · rename_i comma hc
    obtain ⟨i, hi, rfl⟩ := hp comma (Option.filter_eq_some_iff.1 hc).1
    exact .edits (remove_ne_nil (start_lt_stop_of_le hs (by omega) (by omega)))
  · exact .edits (removeTokens_ne_nil hs hj hl)

lemma settles_classStep (ha : ∀ j, s.is j "<" = false) (hh : hi ≤ s.size) :
    Settles (s.implementsAt hi (if s.isWord (j + 1) && !s.isAny (j + 1) ["extends", "implements"] then j + 2 else j + 1))
      (s.classStep p hi j) := by
  unfold classStep
  extract_lets m jp
  rw [ha m, Bool.and_false, if_neg Bool.false_ne_true]
  change Settles (s.implementsAt hi m) (jp ([], m))
  simp only [jp]
  split
  · rename_i he
    have hn : s.is m "implements" = false := is_ne (and_eq_true_iff.1 he).2 (by decide)
    exact .of_eq_false (by rw [implementsAt, hn, Bool.and_false, Bool.false_and]) (.quiet rfl)
  · exact settles_of_iff (classTail_edits_eq_nil_iff hs p m hh)

lemma settles_tokenStep (ha : ∀ j, s.is j "<" = false) (hj : j < hi) (hh : hi ≤ s.size) (hp : ∀ t, p.last = some t → ∃ i < j, t = s.tok i) :
    Settles (s.tokenTakes erase frame p hi j) (s.tokenStep erase frame p hi j) := by
  have hj : j < s.size := by omega
  unfold tokenStep tokenTakes classAt
  extract_lets t afterPoint
  split
  · exact settles_classStep hs ha hh
  by_cases hsp : (frame == .specifiers && t.isWord "type" && s.isWord (j + 1) && !s.is (j + 1) "as")
  · rw [if_pos hsp, hsp, Bool.true_or]
    exact settles_specifierStep hs hj hp
  rw [if_neg hsp, eq_false_iff.2 hsp, Bool.false_or]
  cases hk : t.kind with
  | word => exact settles_wordStep hs hj
  | punct => exact settles_punctStep hs ha hj hk
  | template => exact settles_template p j
  | _ => exact settles_keep p j

omit hs in
lemma modified_eq_false_iff : s.modified hi j = false ↔
    ∀ m, j ≤ m → m < (s.stripMemberModifiers hi j).2 → accessModifiers.contains (s.tok m).text = false := by
  simp only [modified, any_eq_false, mem_range, and_eq_true, decide_eq_true_eq, not_and, Bool.not_eq_true]
  exact ⟨fun h m hm hl => h m hl hm, fun h m hl hm => h m hm hl⟩

lemma stripMemberModifiers_eq_nil_iff (m : Nat) (hh : hi ≤ s.size) :
    (s.stripMemberModifiers hi m).1 = [] ↔ s.modified hi m = false := by
  rw [modified_eq_false_iff]
  fun_induction stripMemberModifiers s hi m with
  | case1 m hm t ha es next hr ih =>
    have hn : Edit.remove t.start (s.tok (m + 1)).start ≠ [] :=
      remove_ne_nil (start_lt_start hs (by omega) (lt_succ_self m))
    have hl : m < next := by
      have hle := s.le_stripMemberModifiers hi (m + 1)
      rw [hr] at hle
      exact hle
    refine iff_of_false (fun h => hn (append_eq_nil_iff.1 h).1) fun h => ?_
    cases ha.symm.trans (h m le_rfl hl)
  | case2 m hm t ha ho ih =>
    rw [ih]
    refine ⟨fun h k hk hl => ?_, fun h k hk hl => h k (by omega) hl⟩
    rcases Nat.eq_or_lt_of_le hk with rfl | hk
    · exact eq_false_iff.2 ha
    · exact h k hk hl
  | case3 m hm t ha ho | case4 m hm => exact iff_of_true rfl fun k hk hl => by omega

omit hs in
lemma modifier_of_stripMemberModifiers (hi j : Nat) (h : (s.stripMemberModifiers hi j).2 ≠ j) :
    s.isWord j ∧ memberModifiers.contains (s.tok j).text := by
  unfold stripMemberModifiers at h
  split at h
  · rename_i hm
    extract_lets t at h
    refine ⟨hm.2.2, ?_⟩
    rw [memberModifiers, contains_append, or_eq_true]
    split at h
    · exact .inl ‹_›
    split at h
    · rename_i ho
      refine .inr ?_
      simp only [contains_cons, contains_nil, Bool.or_false, or_eq_true, beq_iff_eq] at ho ⊢
      tauto
    · exact absurd rfl h
  · exact absurd rfl h

omit hs in
lemma ne_of_modifier {t : Token} (h : memberModifiers.contains t.text) (text : String)
    (ht : memberModifiers.contains text = false) : t.text ≠ text := by
  rintro rfl
  rw [h] at ht
  cases ht

omit hs in
lemma tokenTakes_of_modifier (hw : s.isWord j)
    (hm : memberModifiers.contains (s.tok j).text) : s.tokenTakes erase .classBody p hi j = false := by
  have hk : (s.tok j).kind = .word := by simpa [isWord] using hw
  have hc := ne_of_modifier hm "class" (by decide)
  have ha := ne_of_modifier hm "as" (by decide)
  have hsa := ne_of_modifier hm "satisfies" (by decide)
  have ht := ne_of_modifier hm "this" (by decide)
  simp [tokenTakes, classAt, Token.isWord, wordTakes, hk, hc, ha, hsa, ht]

omit hs in
lemma parameterProperties_eq_nil_iff {st : Nat} :
    s.parameterProperties hi st = [] ↔ s.declaresProperties hi st = false := by
  unfold parameterProperties declaresProperties
  extract_lets listEnd names body bodyEnd
  split
  · rename_i hn
    exact iff_of_true rfl (by rw [hn, Bool.not_true])
  · rename_i hso
    rw [eq_false_iff.2 hso, Bool.not_false]
    exact iff_of_false (cons_ne_nil _ _) (by decide)

lemma settles_memberStep (ha : ∀ j, s.is j "<" = false) (hj : j < hi) (hh : hi ≤ s.size) (hp : ∀ t, p.last = some t → ∃ i < j, t = s.tok i) :
    Settles (s.declaresMember hi j || s.modified hi j ||
        s.is j "constructor" && s.is (j + 1) "(" && s.declaresProperties hi (j + 1) ||
        s.tokenTakes erase .classBody p hi j) (s.memberStep erase p hi j) := by
  have hd := decides_memberDeclaration hs ha (show j < s.size by omega) hj
  unfold memberStep
  generalize s.declaresMember hi j = taken at hd ⊢
  generalize s.memberDeclaration hi j = outcome at hd ⊢
  cases hd with
  | some h => exact .edits h
  | error fault => exact .error fault
  | none =>
    rw [Bool.false_or]
    have hmd := stripMemberModifiers_eq_nil_iff hs j hh
    have hmo := s.modifier_of_stripMemberModifiers hi j
    have hpl : (s.stripMemberModifiers hi j).2 = j → s.modified hi j = false := fun h =>
      modified_eq_false_iff.2 fun m hm hlt => by omega
    dsimp -zeta only [bind, Except.bind]
    generalize s.stripMemberModifiers hi j = stripped at hmd hmo hpl ⊢
    obtain ⟨edits, next⟩ := stripped
    dsimp -zeta only at hmd hmo hpl ⊢
    by_cases hn : next = j
    · rw [hpl hn, Bool.false_or, if_neg (by simpa using hn)]
      extract_lets properties
      have hpr : properties = [] ↔
          (s.is j "constructor" && s.is (j + 1) "(" && s.declaresProperties hi (j + 1)) = false := by
        simp only [properties]
        split
        · rename_i hl
          rw [hl, Bool.true_and]
          exact parameterProperties_eq_nil_iff
        · rename_i hl
          rw [eq_false_iff.2 hl]
          exact iff_of_true rfl rfl
      have ht : Settles (s.tokenTakes erase .classBody p hi j) (s.tokenStep erase .classBody p hi j) :=
        settles_tokenStep hs ha hj hh hp
      generalize s.tokenTakes erase .classBody p hi j = taken at ht ⊢
      generalize s.tokenStep erase .classBody p hi j = decision at ht ⊢
      cases ht with
      | error fault => exact .of_eq_true (Bool.or_true _) (.error fault)
      | edits h => exact .of_eq_true (Bool.or_true _) (.edits fun hni => h (append_eq_nil_iff.1 hni).2)
      | quiet h =>
        rw [Bool.or_false]
        exact settles_of_iff (by simp only [h, append_nil, hpr])
    · obtain ⟨hw, hmo⟩ := hmo hn
      have hc : s.is j "constructor" = false := by
        simp [is, ne_of_modifier hmo "constructor" (by decide)]
      rw [tokenTakes_of_modifier hw hmo, hc, Bool.false_and, Bool.false_and, Bool.or_false, Bool.or_false,
        if_pos (by simpa using hn)]
      exact settles_of_iff hmd

lemma settles_stepAt (ha : ∀ j, s.is j "<" = false) (ho : c.Open) (hc : s.Placed c) :
    Settles (s.takes erase c) (s.stepAt erase c) := by
  have hh := hc.framed.le_size
  have hp (t : Token) : c.progress.last = some t → ∃ i < c.pos, t = s.tok i := hc.last
  unfold stepAt step takes begins
  split
  · exact settles_heritageStep hs ha hh
  split
  · rename_i hb
    obtain ⟨frame, p, hi, pos⟩ := c
    have hf : frame = .block ∨ frame = .classBody := by simpa using (and_eq_true_iff.1 hb).1
    rcases hf with rfl | rfl
    · have hd : Decides (s.declares hi pos) (s.declaration erase hi pos) := decides_declaration hs ha hh
      dsimp only
      generalize s.declares hi pos = taken at hd ⊢
      generalize s.declaration erase hi pos = outcome at hd ⊢
      cases hd with
      | some h => exact .edits h
      | error fault => exact .error fault
      | none => exact settles_tokenStep hs ha ho hh hp
    · exact settles_memberStep hs ha ho hh hp
  · exact settles_tokenStep hs ha ho hh hp

lemma Reaches.settles (ha : ∀ j, s.is j "<" = false) (h : s.Reaches erase s.start c) (ho : c.Open) :
    Settles (s.takes erase c) (s.stepAt erase c) :=
  settles_stepAt hs ha ho ((placed_start hs).reaches h)

end Decisions

end Stream

end CustomElement.Script
