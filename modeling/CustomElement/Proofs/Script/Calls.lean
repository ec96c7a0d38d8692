import CustomElement.Proofs.Script.Embedded
import CustomElement.Proofs.Script.Following

/-!
# What the walk calls for

Nearly all edits of the walk are cuts (`Stream.IsCut`): they take out a range between the edges of two tokens.
-/

namespace CustomElement.Script

open Text

variable {edits more : List Edit} {changes : List Change} {first hi j k lo m : Nat}

lemma mem_remove {st stop : Nat} {e : Edit} : e ∈ Edit.remove st stop ↔ st < stop ∧ e = ⟨st, stop, ""⟩ := by
  unfold Edit.remove
  split <;> simp_all

namespace Stream

variable (s : Stream) (erase : String → Except Fault String)

def IsEdge (n : Nat) : Prop := ∃ i < s.size, n = (s.tok i).start ∨ n = (s.tok i).stop

/-- The edit takes out a range between the edges of tokens. -/
structure IsCut (e : Edit) : Prop where
  text : e.text = ""
  lt : e.start < e.stop
  start : s.IsEdge e.start
  stop : s.IsEdge e.stop

def AllCut (edits : List Edit) : Prop := ∀ e ∈ edits, s.IsCut e

/-- An enumeration is declared from the token at `first` to the one at `last`. -/
structure Enumerates (first last : Nat) : Prop where
  keyword : ∃ k, first ≤ k ∧ (∀ i, first ≤ i → i < k → s.isAny i ["export", "const"] = true) ∧
    s.is k "enum" = true ∧ s.isWord (k + 1) = true ∧ s.is (k + 2) openBrace = true ∧ s.partners[k + 2]? = some (some last)
  lt : last < s.size

inductive Called : Edit → Prop
  | cut {e : Edit} (h : s.IsCut e) : Called e
  | enumeration {first last : Nat} (h : s.Enumerates first last) (text : String) :
    Called ⟨(s.tok first).start, (s.tok last).stop, text⟩
  | property {hi j i : Nat} (h : s.is j "constructor" = true) (hlist : s.is (j + 1) "(" = true) {text : String}
      (he : ⟨(s.tok i).stop, (s.tok i).stop, text⟩ ∈ s.parameterProperties hi (j + 1)) (hi : i < s.size) :
    Called ⟨(s.tok i).stop, (s.tok i).stop, text⟩
  | substitution {j : Nat} (h : (s.tok j).kind = .template)
      (hinterpolation : hasInterpolation (s.tok j).text.toList = true) {edits : List Edit}
      (hedits : substitutionEdits erase (s.tok j) = .ok edits) {e : Edit} (he : e ∈ edits) : Called e

def place (m : Mark) : Nat := (s.tok m.token).start + m.offset

def render : Change → List Edit
  | .cut lo hi => Edit.remove (s.place lo) (s.place hi)
  | .put lo hi text => [⟨s.place lo, s.place hi, text⟩]

/-- The changes come to these edits, and a decision can call for them. -/
structure Makes (changes : List Change) (edits : List Edit) : Prop where
  render : edits = changes.flatMap s.render
  called : ∀ e ∈ edits, s.Called erase e

variable {s erase}

namespace Makes

lemma nil : s.Makes erase [] [] := ⟨rfl, nofun⟩

lemma append {changes' : List Change} (h : s.Makes erase changes edits) (h' : s.Makes erase changes' more) :
    s.Makes erase (changes ++ changes') (edits ++ more) :=
  ⟨by rw [h.render, h'.render, List.flatMap_append], fun e he => (List.mem_append.1 he).elim (h.called e) (h'.called e)⟩

end Makes

variable (s) in
def Marks (mark? : Option Mark) (n : Nat) : Prop := ∃ mark, mark? = some mark ∧ s.place mark = n ∧ s.IsEdge n

lemma marks_start (h : j < s.size) : s.Marks (s.view.start? j) (s.tok j).start :=
  ⟨⟨j, 0⟩, by rw [View.start?, tok?_view h]; rfl, rfl, j, h, .inl rfl⟩

lemma marks_stop (h : j < s.size) : s.Marks (s.view.stop? j) (s.tok j).stop :=
  ⟨⟨j, _⟩, by rw [View.stop?, tok?_view h]; rfl, rfl, j, h, .inr rfl⟩

variable (s erase) in
def Finds (changes? : Option (List Change)) (edits : List Edit) : Prop :=
  ∃ changes, changes? = some changes ∧ s.Makes erase changes edits

lemma finds_cut {lo? hi? : Option Mark} {st stop : Nat} (hl : s.Marks lo? st) (hh : s.Marks hi? stop) :
    s.Finds erase (View.cut? lo? hi?) (Edit.remove st stop) := by
  obtain ⟨lo, rfl, rfl, hl⟩ := hl
  obtain ⟨hi, rfl, rfl, hh⟩ := hh
  refine ⟨_, rfl, by simp [render], fun e he => ?_⟩
  obtain ⟨hlt, rfl⟩ := mem_remove.1 he
  exact .cut ⟨rfl, hlt, hl, hh⟩

lemma finds_cutTokens (hh : hi ≤ s.size) : s.Finds erase (s.view.cutTokens? lo hi) (s.removeTokens lo hi) := by
  unfold View.cutTokens? removeTokens
  split
  · exact finds_cut (marks_start (by omega)) (marks_stop (by omega))
  · exact ⟨[], rfl, .nil⟩

lemma finds_cutInline (hh : hi ≤ s.size) : s.Finds erase (s.view.cutInline? lo hi) (s.removeInline lo hi) := by
  unfold View.cutInline? removeInline
  split
  · rw [code_view, breakBefore_bare]
    dsimp only
    split
    · exact finds_cut (marks_stop (by omega)) (marks_stop (by omega))
    · exact finds_cut (marks_start (by omega)) (marks_stop (by omega))
  · exact ⟨[], rfl, .nil⟩

variable (s erase) in
/-- Both computations find the same declaration, which starts at `first`, or none. -/
inductive SameFind (first : Nat) : Option (List Change × Nat) → Option (List Edit × Nat) → Prop
  | none : SameFind first none none
  | some {changes : List Change} {edits : List Edit} {next : Nat} (h : s.Makes erase changes edits) (hnext : first < next) :
    SameFind first (some (changes, next)) (some (edits, next))

lemma follows_dropTo {first : Nat} (hl : first < hi) (hh : hi ≤ s.size) :
    s.Follows erase (s.SameFind erase first) (liftM (s.view.dropTo? first hi)) (.ok (s.dropTo first hi)) := by
  obtain ⟨changes, heq, hm⟩ : s.Finds erase (s.view.cutTokens? first hi) _ := finds_cutTokens hh
  exact .found (by rw [View.dropTo?, heq]; rfl) (.some hm hl)

lemma pastSemicolon_le (hh : hi ≤ s.size) (hm : m ≤ s.size) : s.pastSemicolon hi m ≤ s.size := by
  unfold pastSemicolon
  split
  · rename_i h
    have hl : m < hi := of_decide_eq_true (and_eq_true_iff.1 h).1
    omega
  · exact hm

namespace Framed

variable (hf : s.Framed lo hi)

include hf

lemma typeEnd (hl : lo ≤ j) :
    s.Follows erase (fun a b => a = b.1 ∧ b.1 ≤ s.size) (s.view.typeEnd? hi j) (s.typeEnd hi j) := by
  have h : s.Follows erase (s.SameStop lo) (s.view.typeEnd? hi j) (Subtype.val <$> s.typeEnd hi j) := hf.typeStop hl
  generalize s.view.typeEnd? hi j = stop? at h ⊢
  generalize s.typeEnd hi j = stop at h ⊢
  cases stop with
  | error fault =>
    cases h with
    | snag h => exact .snag h
  | ok stop =>
    cases h with
    | ok h => exact .ok ⟨h.1, h.2.2⟩

lemma bodilessEnd (hlo : lo ≤ m) (hm : m < hi) (ho : (s.tok m).isOpener) :
    s.Follows erase (fun a b => a = b ∧ ∀ stop, b = some stop → stop ≤ s.size) (s.view.bodilessEnd? hi m)
      (s.bodilessEnd hi m) := by
  unfold Stream.bodilessEnd View.bodilessEnd?
  refine .look (hf.close?_view hlo hm ho) ?_
  simp -zeta only [code_view, is_bare, pastSemicolon_bare]
  extract_lets listEnd rest rest'
  obtain ⟨-, hlt, hc⟩ := hf.close hlo hm ho
  have hr (aft : Nat) (hl : aft ≤ s.size) : s.Follows erase (fun a b => a = b ∧ ∀ stop, b = some stop → stop ≤ s.size)
      (rest aft) (rest' aft) := by
    refine .ok ⟨rfl, fun stop hs => ?_⟩
    split at hs
    · cases hs
    · cases hs
      exact pastSemicolon_le hf.le_size hl
  refine .ite (fun _ => (hf.typeStop (show lo ≤ s.close hi m + 1 + 1 by omega)).bind ?_) fun _ => hr _ hc
  rintro aft _ - ⟨rfl, -, hl⟩
  exact hr aft hl

lemma angleEnd (hl : lo ≤ m) : s.view.angleEnd? hi 0 m = some ((s.angleEnd hi m).map Subtype.val) :=
  (hf.angleStop hl 0).1

lemma parametersAt (hl : lo ≤ m) (listed : Bool) :
    s.view.parametersAt? listed hi m = some (if listed then (s.angleEnd hi m).map (·.1 + 1) else some m) ∧
      ∀ n, (if listed then (s.angleEnd hi m).map (·.1 + 1) else some m) = some n → m ≤ n := by
  rw [View.parametersAt?, hf.angleEnd hl]
  cases listed with
  | false => exact ⟨rfl, fun n h => (some.inj h).le⟩
  | true =>
    refine ⟨?_, fun n h => ?_⟩
    · change some (Option.map _ ((s.angleEnd hi m).map Subtype.val)) = some ((s.angleEnd hi m).map _)
      rw [Option.map_map]
      rfl
    · obtain ⟨⟨angle, hle⟩, -, rfl⟩ := map_eq_some_iff.1 h
      exact Nat.le_succ_of_le hle

lemma typeAlias (hlo : lo ≤ k) (hfi : first ≤ k) :
    s.Follows erase (s.SameFind erase first) (s.view.typeAlias? first k hi) (s.typeAlias first k hi) := by
  unfold Stream.typeAlias View.typeAlias?
  simp -zeta only [code_view, is_bare, pastSemicolon_bare]
  extract_lets rest rest'
  have hr (m : Nat) (hm : k < m) : s.Follows erase (s.SameFind erase first) (rest m) (rest' m) := by
    refine .ite (fun _ => (hf.typeEnd (by omega)).bind ?_) fun _ => .own k _
    rintro stop ⟨_, hs⟩ - ⟨rfl, hl⟩
    have hp := s.le_pastSemicolon hi stop
    exact follows_dropTo (by omega) (pastSemicolon_le hf.le_size hl)
  refine .ite (fun _ => ?_) fun _ => hr (k + 2) (by omega)
  refine .look (hf.angleEnd (by omega)) ?_
  cases s.angleEnd hi (k + 2) with
  | none => exact .own (k + 2) _
  | some angle => exact hr _ (Nat.lt_succ_of_le (by have := angle.2; omega))

lemma overload (hlo : lo ≤ k) (hfi : first ≤ k) (exported : Bool) : s.Follows erase (s.SameFind erase first)
    (s.view.overload? exported first k hi) (s.overload exported first k hi) := by
  unfold Stream.overload View.overload?
  simp -zeta only [code_view, is_bare, isWord_bare]
  extract_lets a b c d params
  have hd : k < d := by
    simp only [d, c, b, a]
    split_ifs <;> omega
  refine .ite (fun _ => ?_) fun _ => .ok .none
  obtain ⟨heq, hle⟩ := hf.parametersAt (show lo ≤ d by omega) (s.is d "<")
  change _ = some params at heq
  change ∀ n, params = some n → d ≤ n at hle
  refine .look heq ?_
  cases hp : params with
  | none => exact .ok .none
  | some m =>
    have hm := hle m hp
    refine .ite (fun hl => ?_) fun _ => .ok .none
    obtain ⟨hlt, hpa⟩ := and_eq_true_iff.1 hl
    refine (hf.bodilessEnd (by omega) (of_decide_eq_true hlt) (isOpener_of_is hf.read hpa (by decide))).bind ?_
    rintro stop _ hs ⟨rfl, hsi⟩
    cases stop with
    | none => exact .ok .none
    | some stop => exact follows_dropTo ((hfi.trans_lt (hd.trans_le hm)).trans (s.lt_bodilessEnd hs)) (hsi stop rfl)

section Embedded

variable {erase? : String → Option (Option String)}
  (herase : ∀ e : String, e.length + 3 ≤ s.source.length → erase? e = some (erase e).toOption)

omit hf in
include herase in
lemma follows_erased {e : String} (h : e.length + 3 ≤ s.source.length) :
    s.Follows erase Eq (View.erased? erase? e) (erase e) := by
  refine .look (herase e h) ?_
  cases hr : erase e with
  | error fault => exact .error (congrArg faultOf hr) h
  | ok x => exact .ok rfl

omit hf in
lemma enumKey (hs : Stream.read s.source = .ok s) (hm : m < s.size) :
    s.Follows erase Eq (s.view.enumKey? m) (s.enumKey m) := by
  unfold Stream.enumKey View.enumKey?
  refine .look (tok?_view hm) ?_
  simp only [kind_seen, text_seen]
  cases hk : (s.tok m).kind with
  | word => exact .ok rfl
  | string => exact .look (slice?_string hs hk) (.ok rfl)
  | _ => exact .own m _

omit hf in
lemma memberLine (name key : String) (m : Nat) (v : Option EnumValue) (next : Option String) :
    s.Follows erase Eq (View.memberLine? name key m v next) (s.memberLine name key m v next) := by
  unfold Stream.memberLine View.memberLine?
  cases v with
  | some v =>
    obtain ⟨x, isString⟩ := v
    cases isString with
    | false => exact .ok rfl
    | true => exact .ok rfl
  | none =>
    cases next with
    | none => exact .own m _
    | some x => exact .ok rfl

omit hf in
@[simp] lemma assigned_view (hi m : Nat) : s.view.assigned hi m = s.assigned hi m := by
  rw [View.assigned, code_view, is_bare, Stream.assigned]

lemma memberStop (hl : lo ≤ m) (hm : m < hi) : s.view.memberStop? hi m = some (s.memberStop hi m) ∧
    m < s.memberStop hi m ∧ s.memberStop hi m ≤ s.size ∧ (s.assigned hi m → m + 2 ≤ s.memberStop hi m) := by
  have hle := hf.le_size
  rw [View.memberStop?, Stream.memberStop, assigned_view]
  by_cases h : s.assigned hi m
  · have hlt : m + 1 < hi := of_decide_eq_true (and_eq_true_iff.1 h).1
    obtain ⟨heq, hg, hs⟩ := hf.initializerEnd (show lo ≤ m + 2 by omega) (by omega)
    simp only [if_pos h]
    exact ⟨heq, by omega, hs, fun _ => hg⟩
  · simp only [if_neg h]
    exact ⟨trivial, by omega, by omega, fun h' => absurd h' h⟩

lemma nextMember (hl : lo ≤ m) (hm : m < hi) :
    s.view.nextMember? hi m = some (s.nextMember hi m) ∧ m < s.nextMember hi m := by
  obtain ⟨heq, hlt, -, -⟩ := hf.memberStop hl hm
  rw [View.nextMember?, heq, Stream.nextMember, code_view]
  split
  · rename_i hc
    exact ⟨if_pos (by rwa [is_bare]), by omega⟩
  · rename_i hc
    exact ⟨if_neg (by rwa [is_bare]), hlt⟩

include herase

omit hf in
lemma enumInitializer (hs : Stream.read s.source = .ok s) (hlo : 4 ≤ lo) (hlt : lo < hi) (hh : hi ≤ s.size)
    (name : String) (ms : List String) : s.Follows erase Eq (s.view.initializer? erase? lo hi name ms)
      (s.enumInitializer erase lo hi name ms) := by
  have hl := length_initializer hs hlo (by omega) ((s.tok (hi - 1)).stop - (s.tok lo).start)
  unfold Stream.enumInitializer View.initializer?
  refine .look (between?_view hs (by omega) (by omega)) (.look (tok?_view (by omega)) ?_)
  simp only [kind_seen, toList_ofList]
  refine .ite (fun _ => .ok rfl) fun _ => (follows_erased herase ?_).bind ?_
  · rwa [String.length_ofList]
  rintro expr _ - rfl
  unfold qualifyMembers
  cases ht : tokenize expr with
  | error fault => exact .error (congrArg faultOf ht) trivial
  | ok ts => exact .ok rfl

lemma memberValue (hl : lo ≤ m) (hm : m < hi) (hfo : 2 ≤ m) (name : String) (ms : List String) :
    s.Follows erase Eq (s.view.memberValue? erase? name hi m ms) (s.memberValue erase name hi m ms) := by
  obtain ⟨heq, -, hs, ha⟩ := hf.memberStop hl hm
  unfold Stream.memberValue View.memberValue?
  rw [assigned_view]
  refine .ite (fun h => .look heq ?_) fun _ => .ok rfl
  refine .ite (fun _ => .own (m + 1) _) fun hn => ?_
  have hg := ha h
  refine (enumInitializer herase hf.read (by omega) (by omega) hs name ms).map ?_
  rintro v _ rfl
  rfl

lemma enumLines (hlo : lo ≤ m) (hfo : 2 ≤ m) (name : String) (ms : List String) (next : Option String) :
    s.Follows erase Eq (s.view.enumLines? erase? name hi m ms next) (s.enumLines erase name hi m ms next) := by
  induction hn : hi - m using Nat.strong_induction_on generalizing m ms next with
  | _ n ih =>
    rw [enumLines_eq, View.enumLines?]
    refine .ite (fun hl => (enumKey hf.read (hl.trans_le hf.le_size)).bind ?_) fun _ => .ok rfl
    rintro key _ - rfl
    refine (hf.memberValue herase hlo hl hfo name ms).bind ?_
    rintro v _ - rfl
    refine (memberLine name key.1 m v next).bind ?_
    rintro line _ - rfl
    obtain ⟨heq, hne⟩ := hf.nextMember hlo hl
    refine .look heq ?_
    rw [if_pos hne, max_eq_left (show m + 1 ≤ s.nextMember hi m from hne)]
    refine (ih _ (by omega) (by omega) (by omega) _ _ rfl).bind ?_
    rintro ls _ - rfl
    exact .ok rfl

lemma lowerEnum (hlo : lo ≤ first) (hfi : first ≤ k) (hk : k < hi)
    (hex : ∀ i, first ≤ i → i < k → s.isAny i ["export", "const"])
    (hen : (s.is k "enum" && s.isWord (k + 1) || s.is k "const" && s.is (k + 1) "enum")) :
    s.Follows erase (fun a b => s.Makes erase a.1 b.1 ∧ a.2 = b.2 ∧ first < b.2) (s.view.lowerEnum? erase? first k hi)
      (s.lowerEnum erase first k hi) := by
  have hle := hf.le_size
  unfold Stream.lowerEnum View.lowerEnum?
  simp -zeta only [code_view, is_bare, isWord_bare]
  extract_lets nameAt bodyAt
  refine .ite (fun _ => .own k _) fun hno => ?_
  simp only [or_eq_true, not_eq_true', not_or, not_eq_false, decide_eq_true_eq, Nat.not_le] at hno
  obtain ⟨⟨hn, hl⟩, hb⟩ := hno
  have hke : ∃ k', first ≤ k' ∧ (∀ i, first ≤ i → i < k' → s.isAny i ["export", "const"]) ∧
      s.is k' "enum" ∧ nameAt = k' + 1 := by
    by_cases hc : s.is k "const"
    · have hne : s.is k "enum" = false := by
        by_contra hne
        simp [is] at hc hne
        simp [hc] at hne
      rw [hc, hne, Bool.false_and, Bool.false_or, Bool.true_and] at hen
      refine ⟨k + 1, by omega, fun i hi hik => ?_, hen, if_pos hc⟩
      rcases Nat.lt_or_eq_of_le (Nat.le_of_lt_succ hik) with hik | rfl
      · exact hex i hi hik
      · simp [isAny, hc]
    · simp only [Bool.not_eq_true] at hc
      rw [hc, Bool.false_and, Bool.or_false] at hen
      exact ⟨k, hfi, hex, (and_eq_true_iff.1 hen).1, if_neg (by simp [hc])⟩
  obtain ⟨k', hk', hbe, hen, hnameAt⟩ := hke
  have ho := isOpener_of_is hf.read hb (by decide)
  obtain ⟨hp, hcl, hs⟩ := hf.close (show lo ≤ bodyAt by omega) hl ho
  have hin := (framed_of_partner hf.read ho hp).1
  refine .look (tok?_view (lt_size_of_isWord hn)) (.look (hf.close?_view (by omega) hl ho)
    (.look (indent?_view hf.read (by omega)) ((hin.enumLines herase le_rfl (by omega) _ _ _).bind ?_)))
  rintro ls _ - rfl
  refine .look (c := ⟨first, 0⟩) (by rw [View.start?, tok?_view (by omega)]; rfl)
    (.look (c := ⟨s.close hi bodyAt, _⟩) (by rw [View.stop?, tok?_view hs]; rfl) (.ok ⟨⟨rfl, fun e he => ?_⟩, rfl, by omega⟩))
  obtain rfl := List.mem_singleton.1 he
  have hbo : bodyAt = k' + 2 := congrArg (· + 1) hnameAt
  exact .enumeration ⟨⟨k', hk', hbe, hen, hnameAt ▸ hn, hbo ▸ hb, hbo ▸ hp⟩, hs⟩ _

lemma declaration (hlo : lo ≤ first) (hfi : first < hi) : s.Follows erase (s.SameFind erase first)
    (s.view.declaration? erase? hi first) (s.declaration erase hi first) := by
  have hle := hf.le_size
  unfold Stream.declaration View.declaration?
  simp -zeta only [code_view, is_bare, isWord_bare, isAny_bare, breakBefore_bare, kind_bare]
  extract_lets exported k
  have hk : first ≤ k := by
    simp only [k]
    split <;> omega
  have hex (i : Nat) (hi : first ≤ i) (hik : i < k) : s.isAny i ["export", "const"] := by
    simp only [k] at hik
    split at hik
    · rename_i he
      obtain rfl : i = first := by omega
      change s.is i "export" = true at he
      simp [isAny, he]
    · omega
  refine .ite (fun _ => .ok .none) fun hl => .ite (fun _ => .own k _) fun _ => .ite (fun _ => ?_) fun _ =>
    .ite (fun _ => ?_) fun _ => .ite (fun _ => ?_) fun _ => .ite (fun _ => ?_) fun _ =>
    .ite (fun _ => hf.typeAlias (by omega) hk) fun _ => .ite (fun hen => ?_) fun _ => .ite (fun _ => .own k _) fun _ =>
    .ite (fun hc => ?_) fun _ => hf.overload (by omega) hk exported
  · refine .ite (fun _ => ?_) fun _ => .ite (fun _ => .own k _) fun _ => .ok .none
    obtain ⟨heq, hs⟩ := hf.statementEndFrom (show lo ≤ k by omega) k
    exact .look heq (follows_dropTo (hk.trans_lt (s.lt_statementEnd (by omega) le_rfl)) hs)
  · obtain ⟨heq, hs⟩ := hf.statementEndFrom (show lo ≤ k by omega) k
    exact .look heq (follows_dropTo (hk.trans_lt (s.lt_statementEnd (by omega) le_rfl)) hs)
  · obtain ⟨heq, hs⟩ := hf.ambientEndFrom (show lo ≤ k + 1 by omega) (k + 1)
    exact .look heq (follows_dropTo (s.lt_ambientEndFrom hfi (by omega) le_rfl) hs)
  · obtain ⟨heq, hbo⟩ := hf.interfaceBody (show lo ≤ k + 2 by omega) 0
    refine .look heq ?_
    cases hin : s.interfaceBody hi 0 (k + 2) with
    | none => exact .own k _
    | some body =>
      obtain ⟨hl, hb⟩ := hbo body hin
      have hle := s.le_interfaceBody hin
      have ho := isOpener_of_is hf.read hb (by decide)
      obtain ⟨-, hcl, hs⟩ := hf.close (show lo ≤ body by omega) hl ho
      exact .look (hf.close?_view (by omega) hl ho) (follows_dropTo (by omega) hs)
  · refine (hf.lowerEnum herase hlo hk (by omega) hex hen).map ?_
    rintro ⟨changes, next⟩ ⟨edits, _⟩ ⟨hm, rfl, hn⟩
    exact .some hm hn
  · have hs := lt_size_of_is (and_eq_true_iff.1 hc).2 (by decide)
    obtain ⟨changes, heq, hm⟩ : s.Finds erase _ _ := finds_cut (marks_start (show k < s.size by omega)) (marks_start hs)
    exact .look heq (.ok (.some hm (by omega)))

end Embedded

omit hf in
lemma skipMemberModifiers_lt (h : m < hi) (dropped : Bool) : (s.skipMemberModifiers hi m dropped).1 < hi := by
  fun_induction s.skipMemberModifiers hi m dropped with
  | case1 m dropped hm ih => exact ih hm.1
  | case2 m dropped hn => exact h

lemma nameEnd (hl : lo ≤ m) (hm : m ≤ hi) (he : (s.tok hi).isOpener = false) :
    s.view.nameEnd? m = some (if s.is m "[" then s.close hi m + 1 else m + 1) := by
  rw [View.nameEnd?, code_view, is_bare]
  split
  · rename_i hb
    have ho := isOpener_of_is hf.read hb (by decide)
    have hn : m ≠ hi := by
      rintro rfl
      rw [he] at ho
      cases ho
    rw [hf.close?_view hl (by omega) ho]
    rfl
  · rfl

lemma memberDeclaration (hlo : lo ≤ j) (hj : j < hi) (he : (s.tok hi).isOpener = false) :
    s.Follows erase (s.SameFind erase j) (s.view.memberDeclaration? hi j) (s.memberDeclaration hi j) := by
  unfold Stream.memberDeclaration View.memberDeclaration?
  simp -zeta only [code_view, is_bare, isWord_bare, isAny_bare, pastSemicolon_bare, skipMemberModifiers_bare,
    memberNameLike_bare]
  refine .ite (fun hin => ?_) fun _ => ?_
  · have ho := isOpener_of_is hf.read (and_eq_true_iff.1 (and_eq_true_iff.1 hin).1).1 (by decide)
    obtain ⟨-, hlt, hs⟩ := hf.close hlo hj ho
    refine .look (hf.close?_view hlo hj ho) ?_
    extract_lets listEnd rest rest'
    have hr (stop : Nat) (hst : listEnd ≤ stop) (hl : stop ≤ s.size) :
        s.Follows erase (s.SameFind erase j) (rest stop) (rest' stop) := by
      have hps := s.le_pastSemicolon hi stop
      exact follows_dropTo (by omega) (pastSemicolon_le hf.le_size hl)
    refine .ite (fun _ => (hf.typeStop (show lo ≤ listEnd + 1 by omega)).bind ?_) fun _ => hr _ le_rfl hs
    rintro stop _ hst ⟨rfl, -, hl⟩
    exact hr stop (by have := lt_of_typeStop hst; omega) hl
  · have hm := s.le_skipMemberModifiers hi j false
    have hm' := skipMemberModifiers_lt (s := s) hj false
    generalize s.skipMemberModifiers hi j false = skipped at hm hm' ⊢
    obtain ⟨m, dropped⟩ := skipped
    dsimp -zeta only at hm hm' ⊢
    extract_lets nameAt nameEnd marked params
    have hna : m ≤ nameAt ∧ nameAt ≤ hi := by
      simp only [nameAt]
      split <;> omega
    have hma : nameAt < marked := by
      have hc := s.le_close hi nameAt
      simp only [marked, nameEnd]
      split_ifs <;> omega
    refine .ite (fun _ => .ok .none) fun _ => .look (hf.nameEnd (by omega) hna.2 he) ?_
    obtain ⟨heq, hl⟩ := hf.parametersAt (show lo ≤ marked by omega) (decide (marked < hi) && s.is marked "<")
    change _ = some params at heq
    change ∀ n, params = some n → marked ≤ n at hl
    refine .look heq ?_
    cases hp : params with
    | none => exact .ok .none
    | some n =>
      have hn := hl n hp
      refine .ite (fun hli => ?_) fun _ => .ite (fun _ => ?_) fun _ => .ok .none
      · obtain ⟨hlt, hpa⟩ := and_eq_true_iff.1 hli
        refine (hf.bodilessEnd (by omega) (of_decide_eq_true hlt) (isOpener_of_is hf.read hpa (by decide))).bind ?_
        rintro stop _ hst ⟨rfl, hs⟩
        cases stop with
        | none => exact .ok .none
        | some stop => exact follows_dropTo (by have := s.lt_bodilessEnd hst; omega) (hs stop rfl)
      · obtain ⟨heq, hs⟩ := hf.statementEndFrom (show lo ≤ min n hi by omega) (min n hi)
        exact .look heq (follows_dropTo (s.lt_statementEnd hj (by omega)) hs)

lemma stripMemberModifiers (m : Nat) : ∃ changes, s.Makes erase changes (s.stripMemberModifiers hi m).1 ∧
    s.view.stripModifiers? hi m = some (changes, (s.stripMemberModifiers hi m).2) := by
  have hl := hf.le_size
  rw [View.stripModifiers?, code_view, memberNameLike_bare, isWord_bare]
  fun_induction s.stripMemberModifiers hi m with
  | case1 m hm t ha edits next hr ih =>
    obtain ⟨changes, hma, heq⟩ := ih
    rw [← isWord_bare, ← memberNameLike_bare, ← code_view, ← View.stripModifiers?, hr] at heq
    rw [hr] at hma
    have hc : s.Finds erase _ _ := finds_cut (marks_start (show m < s.size by omega)) (marks_start (show m + 1 < s.size by omega))
    obtain ⟨changes', he', hma'⟩ := hc
    refine ⟨changes' ++ changes, hma'.append hma, ?_⟩
    rw [if_pos hm, tok?_view (by omega)]
    refine (if_pos ha).trans ?_
    rw [heq, he']
    rfl
  | case2 m hm t ha ho ih =>
    obtain ⟨changes, hma, heq⟩ := ih
    rw [← isWord_bare, ← memberNameLike_bare, ← code_view, ← View.stripModifiers?] at heq
    rw [if_pos hm, tok?_view (by omega)]
    exact ⟨changes, hma, (if_neg ha).trans ((if_pos ho).trans heq)⟩
  | case3 m hm t ha ho =>
    rw [if_pos hm, tok?_view (by omega)]
    exact ⟨[], .nil, (if_neg ha).trans (if_neg ho)⟩
  | case4 m hm =>
    rw [if_neg hm]
    exact ⟨[], .nil, rfl⟩

omit hf in
lemma anchor (hf : s.Framed (m + 1) hi) (hm : m < hi) : ∃ i ind, i < s.size ∧
    s.view.anchor? m hi = some (⟨i, byteLength (s.tok i).text.toList⟩, ind) ∧
    s.propertyAnchor m hi = ((s.tok i).stop, ind) := by
  have hle := hf.le_size
  have hst (i : Nat) (hi : i < s.size) : s.view.stop? i = some ⟨i, byteLength (s.tok i).text.toList⟩ := by
    rw [View.stop?, tok?_view hi]
    rfl
  obtain ⟨heq, hc⟩ := hf.superCallFrom le_rfl (m + 1)
  rw [View.anchor?, propertyAnchor, heq]
  cases hsu : s.superCallFrom (m + 1) hi (m + 1) with
  | some call =>
    obtain ⟨hg, hl⟩ := hc call hsu
    obtain ⟨he, hs⟩ := hf.statementEndFrom hg call
    have hp := s.lt_statementEnd hl le_rfl
    have hs : s.statementEnd hi call - 1 < s.size := by
      change s.statementEnd hi call ≤ s.size at hs
      omega
    refine ⟨_, _, hs, ?_, rfl⟩
    change (do return (← s.view.stop? ((← s.view.endFrom? false hi call call) - 1), ← s.view.indent? call)) = _
    rw [he, indent?_view hf.read (by omega)]
    change (do return (← s.view.stop? (s.statementEnd hi call - 1), _)) = _
    rw [hst _ hs]
    rfl
  | none =>
    simp only [code_view, breakBefore_bare]
    by_cases hb : (decide (m + 1 < hi) && s.breakBefore (m + 1))
    · have hl : m + 1 < hi := of_decide_eq_true (and_eq_true_iff.1 hb).1
      refine ⟨m, _, by omega, ?_, if_pos hb⟩
      rw [hst m (by omega), indent?_view hf.read (by omega)]
      exact if_pos hb
    · refine ⟨m, _, by omega, ?_, if_neg hb⟩
      rw [hst m (by omega), indent?_view hf.read (j := m) (by omega)]
      exact if_neg hb

lemma parameterProperties (hlo : lo ≤ j) (hj : j + 1 < hi) (h : s.is j "constructor") (hl : s.is (j + 1) "(") :
    s.Finds erase (s.view.parameterProperties? hi (j + 1)) (s.parameterProperties hi (j + 1)) := by
  have ho := isOpener_of_is hf.read hl (by decide)
  obtain ⟨hp, hlt, hs⟩ := hf.close (show lo ≤ j + 1 by omega) hj ho
  have hin := (framed_of_partner hf.read ho hp).1
  suffices hfi : s.view.parameterProperties? hi (j + 1) = some [] ∧ s.parameterProperties hi (j + 1) = [] ∨
      ∃ i x, i < s.size ∧ s.parameterProperties hi (j + 1) = [⟨(s.tok i).stop, (s.tok i).stop, x⟩] ∧
        s.view.parameterProperties? hi (j + 1) =
          some [.put ⟨i, byteLength (s.tok i).text.toList⟩ ⟨i, byteLength (s.tok i).text.toList⟩ x] by
    rcases hfi with ⟨heq, hn⟩ | ⟨i, x, hs, hpu, heq⟩
    · exact ⟨[], heq, hn ▸ .nil⟩
    · refine ⟨_, heq, by rw [hpu]; rfl, fun e he => ?_⟩
      obtain rfl := List.mem_singleton.1 (hpu ▸ he)
      exact .property h hl he hs
  have hna := hin.propertyNamesFrom le_rfl true
  rw [View.parameterProperties?, hf.close?_view (by omega) hj ho]
  unfold Stream.parameterProperties
  simp only [bind_eq_bind, bind_some, hna, code_view, is_bare, breakBefore_bare]
  generalize s.propertyNamesFrom (s.close hi (j + 1)) (j + 1 + 1) true = names
  generalize hb : s.close hi (j + 1) + 1 = body
  by_cases hn : (names.isEmpty || decide (hi ≤ body) || !s.is body openBrace)
  · exact .inl ⟨if_pos hn, if_pos hn⟩
  · simp only [if_neg hn]
    simp only [or_eq_true, decide_eq_true_eq, not_or, not_eq_true', not_eq_false, Nat.not_le] at hn
    have ho' := isOpener_of_is hf.read hn.2 (by decide)
    obtain ⟨hp', hlt', hs'⟩ := hf.close (show lo ≤ body by omega) hn.1.2 ho'
    obtain ⟨i, ind, hi', heq, ha⟩ := anchor (framed_of_partner hf.read ho' hp').1 hlt'
    rw [hf.close?_view (show lo ≤ body by omega) hn.1.2 ho', ha]
    simp only [bind_some, heq]
    refine .inr ⟨i, _, hi', rfl, ?_⟩
    by_cases hen : (body + 1 == s.close hi body && !s.breakBefore (s.close hi body))
    · simp only [if_pos hen]
      rw [indent?_view hf.read (by omega)]
      rfl
    · simp only [if_neg hen]

end Framed

end Stream

end CustomElement.Script
