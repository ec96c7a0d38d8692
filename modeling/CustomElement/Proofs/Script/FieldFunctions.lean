import CustomElement.Proofs.Script.Normalizing
import CustomElement.Proofs.Script.Kept

/-!
# A statement in front of a field's function

The body of a field's function is found by the code before its opening brace (`findsBrace_fieldBrace`), so it is found
in the same place after a statement is put in front of it. The code of the field is then the code it had, with that of
the statement behind the brace (`gainsFirst_withFirst`).
-/

namespace CustomElement.Script

open List Text

variable {ns : List Node} {offset : Nat} {text' : String}

def skipNode (p : Node → Bool) : List Node → List Node
  | [] => []
  | n :: ns => if p n then ns else n :: ns

def searchBehind (p : Node → Bool) (search : List Node → Option Token) : List Node → Option Token
  | [] => none
  | n :: ns => if p n then search ns else none

def fieldBrace (name : String) (nodes : List Node) : Option Token :=
  searchBehind (fun n => n.isLeaf fun t => t.isWord name)
    (searchBehind (fun n => n.isLeaf fun t => t.isPunct "=") fun rest =>
      functionBrace (skipNode (fun n => n.isLeaf fun t => t.isWord "async") rest))
    (nodes.dropWhile fun n => n.isLeaf fun t => t.kind == .word && fieldModifiers.contains t.text)

lemma fieldFunctionBody_eq (text name : String) :
    fieldFunctionBody text name = (codeNodes text).bind fun ns => (fieldBrace name ns).map Token.stop := by
  rw [fieldFunctionBody]
  cases codeNodes text with
  | none => rfl
  | some ns =>
    simp only [bind_eq_bind, bind_some, fieldBrace]
    cases ns.dropWhile fun n => n.isLeaf fun t => t.kind == .word && fieldModifiers.contains t.text with
    | nil => rfl
    | cons field ns =>
      cases ns with
      | nil => simp [searchBehind]
      | cons assign r =>
        simp only [searchBehind]
        by_cases hf : (field.isLeaf fun t => t.isWord name)
        · by_cases ha : (assign.isLeaf fun t => t.isPunct "=")
          · simp only [hf, ha, Bool.and_true, if_true, guard_true, Option.pure_def, bind_some, Option.map_eq_bind]
            cases r <;> rfl
          · simp [ha]
        · simp [hf]

lemma functionBrace_eq (ns : List Node) : functionBrace ns = match ns with
    | [] => none
    | n :: r =>
      if n.isLeaf fun t => t.isWord "function" then
        braceAfterParams (skipNode (fun n => n.isLeaf fun t => t.kind == .word)
          (skipNode (fun n => n.isLeaf fun t => t.isPunct "*") r))
      else if (n.isLeaf fun t => t.kind == .word) || n.isGroup "(" then
        searchBehind (fun n => n.isLeaf fun t => t.isPunct "=>") leadingBrace r else none := by
  cases ns with
  | nil => rfl
  | cons n r =>
    cases n with
    | group o inside closer =>
      cases r with
      | nil => simp [functionBrace, isLeaf, searchBehind]
      | cons arrow body =>
        simp only [functionBrace, searchBehind, and_eq_true, ite_and]
        rfl
    | leaf t =>
      have hl : (((Node.leaf t).isLeaf fun t => t.kind == .word) || (Node.leaf t).isGroup "(") = (t.kind == .word) :=
        Bool.or_false _
      simp only [functionBrace, hl]
      cases r with
      | nil => rfl
      | cons m r =>
        by_cases hs : (m.isLeaf fun t => t.isPunct "*")
        · simp only [skipNode, hs, if_true]
          cases r <;> rfl
        · simp only [skipNode, hs]
          rfl

/-- The search finds the opening brace of a group of the nodes by what stands before it. -/
def FindsAt (search : List Node → Option Token) (ns : List Node) (brace : Token) : Prop :=
  ∃ pre inside closer post, ns = pre ++ .group brace inside closer :: post ∧ brace.isPunct openBrace = true ∧
    ∀ inside' closer' post', search (pre ++ .group brace inside' closer' :: post') = some brace

def FindsBrace (search : List Node → Option Token) : Prop := ∀ ns brace, search ns = some brace → FindsAt search ns brace

section Searches

variable {search search' : List Node → Option Token} {p : Node → Bool}

lemma FindsAt.cons {n : Node} {brace : Token} (h : FindsAt search ns brace)
    (hc : ∀ ns, search' (n :: ns) = search ns) : FindsAt search' (n :: ns) brace := by
  obtain ⟨pre, inside, closer, post, rfl, ho, hp⟩ := h
  refine ⟨n :: pre, inside, closer, post, rfl, ho, fun inside' closer' post' => ?_⟩
  rw [cons_append, hc, hp]

lemma findsBrace_leadingBrace : FindsBrace leadingBrace := by
  intro ns brace h
  unfold leadingBrace at h
  split at h
  · rename_i o inside closer r
    split at h
    · rename_i ho
      cases h
      exact ⟨[], inside, closer, r, rfl, ho, fun _ _ _ => by simp [leadingBrace, ho]⟩
    · cases h
  · cases h

lemma FindsBrace.behind (h : FindsBrace search) : FindsBrace (searchBehind p search) := by
  intro ns brace hf
  cases ns with
  | nil => cases hf
  | cons n ns =>
    rw [searchBehind] at hf
    split at hf
    · rename_i hn
      exact (h ns brace hf).cons fun ns => by rw [searchBehind, if_pos hn]
    · cases hf

section

variable (h : FindsBrace search) (hp : ∀ o inside closer, p (.group o inside closer) = false)

include h hp

lemma FindsBrace.skip : FindsBrace fun ns => search (skipNode p ns) := by
  intro ns brace hf
  cases ns with
  | nil =>
    obtain ⟨pre, _, _, _, hni, -⟩ := h [] brace hf
    simp at hni
  | cons n ns =>
    by_cases hn : p n
    · have hf : search ns = some brace := by simpa [skipNode, hn] using hf
      exact (h ns brace hf).cons fun ns => by simp [skipNode, hn]
    · have hf : search (n :: ns) = some brace := by simpa [skipNode, hn] using hf
      obtain ⟨pre, inside, closer, post, hns, ho, hpr⟩ := h (n :: ns) brace hf
      refine ⟨pre, inside, closer, post, hns, ho, fun inside' closer' post' => ?_⟩
      cases pre with
      | nil => simpa [skipNode, hp] using hpr inside' closer' post'
      | cons m pre =>
        obtain ⟨rfl, -⟩ := cons.inj hns
        simpa [skipNode, hn] using hpr inside' closer' post'

lemma FindsBrace.dropWhile : FindsBrace fun ns => search (ns.dropWhile p) := by
  intro ns brace hf
  obtain ⟨pre, inside, closer, post, hns, ho, hpr⟩ := h _ brace hf
  refine ⟨ns.takeWhile p ++ pre, inside, closer, post, ?_, ho, fun inside' closer' post' => ?_⟩
  · rw [append_assoc, ← hns, takeWhile_append_dropWhile]
  · have hh : (pre ++ .group brace inside' closer' :: post').dropWhile p = pre ++ .group brace inside' closer' :: post' := by
      cases pre with
      | nil => simp [hp]
      | cons m pre =>
        have hm := head?_dropWhile_any p ns
        rw [hns] at hm
        have hm : p m = false := by simpa using hm
        simp [hm]
    have ht : ∀ n ∈ ns.takeWhile p, p n := fun n hn => mem_takeWhile_imp hn
    show search ((ns.takeWhile p ++ pre ++ .group brace inside' closer' :: post').dropWhile p) = some brace
    rw [append_assoc, dropWhile_append_of_pos ht, hh, hpr]

end

lemma findsBrace_braceAfterParams : FindsBrace braceAfterParams := by
  have heq : braceAfterParams = searchBehind (fun n => n.isGroup "(") leadingBrace := by
    funext ns
    cases ns with
    | nil => rfl
    | cons n ns => cases n <;> rfl
  rw [heq]
  exact findsBrace_leadingBrace.behind

lemma findsBrace_functionBrace : FindsBrace functionBrace := by
  have hna := findsBrace_braceAfterParams.skip (p := fun n => n.isLeaf fun t => t.kind == .word) fun _ _ _ => rfl
  have hs := hna.skip (p := fun n => n.isLeaf fun t => t.isPunct "*") fun _ _ _ => rfl
  have ha := findsBrace_leadingBrace.behind (p := fun n => n.isLeaf fun t => t.isPunct "=>")
  intro ns brace hf
  rw [functionBrace_eq] at hf
  cases ns with
  | nil => cases hf
  | cons n r =>
    simp only at hf
    split at hf
    · rename_i hn
      exact (hs r brace hf).cons fun ns => by simp only [functionBrace_eq, hn, if_true]
    · rename_i hn
      split at hf
      · rename_i hl
        exact (ha r brace hf).cons fun ns => by simp only [functionBrace_eq, hn, hl, if_true]; rfl
      · cases hf

lemma findsBrace_fieldBrace (name : String) : FindsBrace (fieldBrace name) :=
  ((findsBrace_functionBrace.skip fun _ _ _ => rfl).behind.behind).dropWhile fun _ _ _ => rfl

end Searches

lemma codeNodes_eq_some_iff {text : String} : codeNodes text = some ns ↔
    ∃ tokens ms, tokenize text = .ok tokens ∧ forest text tokens = .ok ms ∧ ms.filter (fun n => !n.isTrivia) = ns := by
  rw [codeNodes]
  cases ht : tokenize text with
  | error fault => simp [Except.toOption]
  | ok tokens =>
    cases hn : forest text tokens with
    | error fault | ok ms => simp [Except.toOption, hn]

lemma exists_field {text name : String} (h : fieldFunctionBody text name = some offset) :
    ∃ tokens pre brace inside closer post, tokenize text = .ok tokens ∧
      forest text tokens = .ok (pre ++ .group brace inside closer :: post) ∧ brace.isPunct openBrace ∧
      brace.stop = offset ∧ ∀ inside' closer' post',
        fieldBrace name ((pre ++ .group brace inside' closer' :: post').filter fun n => !n.isTrivia) = some brace := by
  rw [fieldFunctionBody_eq, bind_eq_some_iff] at h
  obtain ⟨ns, hns, hst⟩ := h
  obtain ⟨brace, hbr, rfl⟩ := map_eq_some_iff.1 hst
  obtain ⟨tokens, ms, ht, hn, rfl⟩ := codeNodes_eq_some_iff.1 hns
  obtain ⟨pre, inside, closer, post, hs, ho, hf⟩ := findsBrace_fieldBrace name _ brace hbr
  -- The nodes around the brace, with the trivia among them.
  obtain ⟨before, behind, rfl, rfl, hb⟩ := filter_eq_append_iff.1 hs
  obtain ⟨g, post', rfl, hg, -, rfl⟩ := filter_eq_cons_iff.1 hb
  have htr : g.filter (fun n => !n.isTrivia) = [] := by simpa [filter_eq_nil_iff] using hg
  refine ⟨tokens, before ++ g, brace, inside, closer, post', ht, by rw [hn, append_assoc], ho, rfl, ?_⟩
  intro inside' closer' post''
  rw [filter_append, filter_append, htr, append_nil, filter_cons_of_pos rfl, hf]

lemma codeForms_eq_filter (ts : List Token) : codeForms ts = (ts.map form).filter fun f => !f.isTrivia := by
  rw [codeForms, filter_map]
  rfl

@[simp] lemma codeForms_append (as bs : List Token) : codeForms (as ++ bs) = codeForms as ++ codeForms bs := by
  simp [codeForms]

lemma exists_gap_before {g x : List Char} {sl : Bool} {gs : List Form} (hg : IsGap g)
    (hns : ∀ n ∈ ns, n.Balanced) (hgs : ∀ f ∈ gs.head?, f.kind ≠ .blank)
    (h : Reads false sl x ((tokensOf ns).map form ++ gs)) :
    ∃ ns', (∀ n ∈ ns', n.Balanced) ∧ codeForms (tokensOf ns') = codeForms (tokensOf ns) ∧
      Reads false sl (g ++ x) ((tokensOf ns').map form ++ gs) := by
  by_cases hne : g = []
  · subst hne
    exact ⟨ns, hns, rfl, h⟩
  by_cases hin : StartsInk x
  · refine ⟨.leaf ⟨.blank, String.ofList g, 0⟩ :: ns, forall_mem_cons.2 ⟨.leaf rfl rfl, hns⟩, ?_, ?_⟩
    · simp [codeForms, Token.isTrivia]
    · simpa [form] using Reads.cons (lexes_blank hne hg hin) h
  -- The text begins with a blank, which grows.
  have hs : x.takeWhile isGap ++ x.dropWhile isGap = x := takeWhile_append_dropWhile
  have hbl : x.takeWhile isGap ≠ [] := by
    intro hni
    rw [hni, nil_append] at hs
    exact hin (hs ▸ startsInk_dropWhile x)
  have hfi : Lexes false sl (x.takeWhile isGap ++ x.dropWhile isGap) _ _ :=
    lexes_blank hbl (isGap_takeWhile x) (startsInk_dropWhile x)
  rw [hs] at hfi
  obtain ⟨more, hf, hm⟩ := (reads_iff_of_lexes hfi).1 h
  have hgr : Reads false sl (g ++ x) (⟨.blank, g ++ x.takeWhile isGap⟩ :: more) := by
    have hl : Lexes false sl (g ++ x.takeWhile isGap ++ x.dropWhile isGap) _ _ :=
      lexes_blank (fun hni => hne (append_eq_nil_iff.1 hni).1) (hg.append (isGap_takeWhile x)) (startsInk_dropWhile x)
    rw [append_assoc, hs] at hl
    exact .cons hl hm
  cases ns with
  | nil => exact absurd rfl (hgs ⟨.blank, x.takeWhile isGap⟩ (by simpa using congrArg head? hf))
  | cons n ns =>
    obtain ⟨hn, hr⟩ := forall_mem_cons.1 hns
    cases n with
    | leaf b =>
      rw [tokensOf_cons, tokens_leaf, singleton_append, map_cons, cons_append] at hf
      obtain ⟨hb, rfl⟩ := cons.inj hf
      have hk : b.kind = .blank := congrArg Form.kind hb
      refine ⟨.leaf ⟨.blank, String.ofList (g ++ x.takeWhile isGap), 0⟩ :: ns,
        forall_mem_cons.2 ⟨.leaf rfl rfl, hr⟩, ?_, ?_⟩
      · simp [codeForms, Token.isTrivia, hk]
      · simpa [form] using hgr
    | group o inside closer =>
      cases hn with
      | group ho hc his =>
        have hk : o.kind = .blank := by
          simpa [form] using congrArg Form.kind (cons.inj hf).1
        simp [Token.isOpener, hk] at ho

/-- A statement that is read as these nodes before every text. -/
structure ReadsClosed (stmt : String) (ns : List Node) : Prop where
  balanced : ∀ n ∈ ns, n.Balanced
  reads : ∀ rest fs, Reads false true rest fs → Reads false true (stmt.toList ++ rest) ((tokensOf ns).map form ++ fs)

/-- The field `name` gains a statement as the first of its function: the text is read as the tokens up to the opening
brace, the code of the statement and the code that was there. -/
def GainsFirst (name stmt text text' : String) : Prop :=
  ∃ before behind behind' lead trail, tokenize text = .ok (before ++ behind) ∧ tokenize text' = .ok (before ++ behind') ∧
    fieldFunctionBody text name = some (byteLength (charsOf before)) ∧
    fieldFunctionBody text' name = some (byteLength (charsOf before)) ∧
    codeForms behind' = (codeOf stmt).map form ++ codeForms behind ∧
    text'.toList = charsOf before ++ (lead ++ (stmt.toList ++ (trail ++ charsOf behind))) ∧ IsGap lead ∧ IsGap trail

def StartsWith (name stmt text : String) : Prop :=
  ∃ before behind, tokenize text = .ok (before ++ behind) ∧
    fieldFunctionBody text name = some (byteLength (charsOf before)) ∧ (codeOf stmt).map form <+: codeForms behind

lemma GainsFirst.startsWith {name stmt text : String} (h : GainsFirst name stmt text text') :
    StartsWith name stmt text' := by
  obtain ⟨before, behind, behind', lead, trail, -, ht, -, hb, hc, -⟩ := h
  exact ⟨before, behind', ht, hb, hc ▸ prefix_append _ _⟩

section Insertion

variable {name stmt text : String} {sn : List Node} {tokens : List Token} {pre inside post : List Node}
  {brace closer : Token}

lemma slashThrough_openBrace (ho : brace.isPunct openBrace) (ts : List Token) (sl : Bool) :
    slashThrough sl ((ts ++ [brace]).map form) := by
  rw [isPunct_iff] at ho
  have hb : brace.form = ⟨.punct, ['\x7b']⟩ := by
    rw [form, ho.1, ho.2]
    rfl
  rw [map_append, slashThrough_append, map_singleton, hb]
  rfl

lemma isEmpty_concat_form (ts : List Token) (t : Token) (fr : Bool) :
    (fr && ((ts ++ [t]).map form).isEmpty) = false := by simp

lemma tokens_around (hf : forest text tokens = .ok (pre ++ .group brace inside closer :: post)) :
    tokens = (tokensOf pre ++ [brace]) ++ (tokensOf inside ++ closer :: tokensOf post) := by
  rw [← tokensOf_forest hf, tokensOf_append]
  simp

lemma reads_around (ht : tokenize text = .ok tokens)
    (hf : forest text tokens = .ok (pre ++ .group brace inside closer :: post)) (ho : brace.isPunct openBrace) :
    brace.stop = byteLength (charsOf (tokensOf pre ++ [brace])) ∧
    Reads true true (charsOf (tokensOf pre ++ [brace])) ((tokensOf pre ++ [brace]).map form) ∧
    Reads false true (charsOf (tokensOf inside ++ closer :: tokensOf post))
      ((tokensOf inside ++ closer :: tokensOf post).map form) := by
  have ha := tokens_around hf
  have hti : TilesFrom 0 tokens text.toList := tokensFrom_tiles (mapError_eq_ok.1 ht)
  have hr := tokenize_eq_ok_iff.1 ⟨tokens, ht, rfl⟩
  rw [ha, map_append] at hr
  obtain ⟨hbe, hb⟩ := hr.split
  rw [flatMap_form] at hbe hb
  rw [slashThrough_openBrace ho, isEmpty_concat_form] at hb
  refine ⟨?_, hbe, hb⟩
  rw [ha, append_assoc] at hti
  rw [Token.stop, hti.start_eq, charsOf_append, byteLength_append]
  simp

lemma exists_reads_prepended (hc : ReadsClosed stmt sn) (ht : tokenize text = .ok tokens)
    (hf : forest text tokens = .ok (pre ++ .group brace inside closer :: post)) (ho : brace.isPunct openBrace)
    {lead trail : List Char} (hne : lead ≠ []) (hl : IsGap lead) (htr : IsGap trail) :
    ∃ ns, (∀ n ∈ pre ++ .group brace ns closer :: post, n.Balanced) ∧
      codeForms (tokensOf ns) = codeForms (tokensOf sn) ++ codeForms (tokensOf inside) ∧
      Reads true true (charsOf (tokensOf pre ++ [brace]) ++ (lead ++ (stmt.toList ++
          (trail ++ charsOf (tokensOf inside ++ closer :: tokensOf post)))))
        ((tokensOf (pre ++ .group brace ns closer :: post)).map form) := by
  obtain ⟨-, hbe, hb⟩ := reads_around ht hf ho
  obtain ⟨hpr, hg, hpo⟩ : (∀ n ∈ pre, n.Balanced) ∧ (Node.group brace inside closer).Balanced ∧ ∀ n ∈ post, n.Balanced := by
    simpa [forall_mem_append, or_imp, forall_and] using balanced_forest hf
  cases hg with
  | group hop hcl hin =>
    have hk : closer.kind ≠ .blank := by
      rw [isPunct_iff] at hcl
      simp [hcl.1]
    rw [map_append, map_cons] at hb
    obtain ⟨inside', hin', hco, hr⟩ := exists_gap_before htr hin (by simpa [form] using hk) hb
    have hb' := forall_mem_append.2 ⟨hc.balanced, hin'⟩
    have hst := hc.reads _ _ hr
    rw [← append_assoc (map _ _), ← map_append, ← tokensOf_append] at hst
    obtain ⟨ns, hns, hcn, hs⟩ := exists_gap_before hl hb' (by simpa [form] using hk) hst
    rw [← slashThrough_openBrace ho (tokensOf pre) true, ← isEmpty_concat_form (tokensOf pre) brace true] at hs
    refine ⟨ns, ?_, ?_, ?_⟩
    · rw [forall_mem_append, forall_mem_cons]
      exact ⟨hpr, .group hop hcl hns, hpo⟩
    · rw [hcn, tokensOf_append, codeForms_append, hco]
    · have hn : (lead ++ (stmt.toList ++ (trail ++ charsOf (tokensOf inside ++ closer :: tokensOf post)))).head?.all
          isNeutral := by
        obtain ⟨d, lead, rfl⟩ := exists_cons_of_ne_nil hne
        exact isNeutral_of_isGap (hl d (by simp))
      have hp : brace.kind = .punct := (Token.isPunct_iff.1 ho).1
      have ha := hbe.append hs hn (by simp [form, hp])
      simpa [tokensOf_append, form] using ha

lemma exists_forest_from (ht : tokenize text = .ok tokens)
    (hfo : forest text tokens = .ok (pre ++ .group brace inside closer :: post))
    (hba : ∀ n ∈ pre ++ .group brace ns closer :: post, n.Balanced)
    (hr : Reads true true text'.toList ((tokensOf (pre ++ .group brace ns closer :: post)).map form)) :
    ∃ behind ns' closer' post', tokenize text' = .ok (tokensOf pre ++ brace :: behind) ∧
      forest text' (tokensOf pre ++ brace :: behind) = .ok (pre ++ .group brace ns' closer' :: post') ∧
      behind.map form = (tokensOf ns ++ closer :: tokensOf post).map form := by
  obtain ⟨tokens', ht', hf⟩ := tokenize_eq_ok_iff.2 hr
  -- The tokens up to the brace stand where they stood.
  have hs : tokensOf (pre ++ .group brace ns closer :: post) =
      (tokensOf pre ++ [brace]) ++ (tokensOf ns ++ closer :: tokensOf post) := by
    simp [tokensOf_append]
  rw [hs, map_append] at hf
  obtain ⟨before, behind, rfl, hbe, hb⟩ := map_eq_append_iff.1 hf
  have hti : TilesFrom 0 tokens text.toList := tokensFrom_tiles (mapError_eq_ok.1 ht)
  have hti' : TilesFrom 0 (before ++ behind) text'.toList := tokensFrom_tiles (mapError_eq_ok.1 ht')
  rw [tokens_around hfo] at hti
  obtain rfl := (hti'.eq_map_shift (n := 0) hti hbe).trans (map_id _)
  rw [append_assoc, singleton_append] at ht'
  -- The group and what follows it are read from the tokens behind.
  obtain ⟨hp, hg⟩ := forall_mem_append.1 hba
  have hre : (brace :: behind).map form = (tokensOf (.group brace ns closer :: post)).map form := by
    simpa using hb
  obtain ⟨ms', hno', hbr⟩ := exists_forest hg hre text'
  obtain ⟨n, post', rfl, hn, -⟩ := map_eq_cons_iff.1 hbr
  cases n with
  | leaf t => simp at hn
  | group brace' ns' closer' =>
    have htokensOf := tokensOf_forest hno'
    obtain ⟨rfl, -⟩ : brace' = brace ∧ _ := by simpa using htokensOf
    have ha := forest_tokensOf text' (forall_mem_append.2 ⟨hp, balanced_forest hno'⟩)
    rw [tokensOf_append, htokensOf] at ha
    exact ⟨behind, ns', closer', post', ht', ha, hb⟩

lemma gainsFirst_insertion (hcl : ReadsClosed stmt sn) (hc : (codeOf stmt).map form = codeForms (tokensOf sn))
    (h : fieldFunctionBody text name = some offset) {lead trail : List Char} (hn : lead ≠ []) (hl : IsGap lead)
    (htr : IsGap trail)
    (hte : text'.toList = takeBytes offset text.toList ++ (lead ++ (stmt.toList ++ (trail ++ dropBytes offset text.toList)))) :
    GainsFirst name stmt text text' := by
  obtain ⟨tokens, pre, brace, inside, closer, post, ht, hf, ho, rfl, hfi⟩ := exists_field h
  obtain ⟨hs, -, -⟩ := reads_around ht hf ho
  obtain ⟨ns, hb, hc', hr⟩ := exists_reads_prepended hcl ht hf ho hn hl htr
  have hch : text.toList = charsOf (tokensOf pre ++ [brace]) ++ charsOf (tokensOf inside ++ closer :: tokensOf post) := by
    rw [← charsOf_append, ← tokens_around hf, ← tokensOf_forest hf, charsOf_forest ht hf]
  rw [hs, hch, takeBytes_byteLength, dropBytes_byteLength] at hte
  rw [← hte] at hr
  obtain ⟨behind', ns', closer', post', ht', hf', hfo⟩ := exists_forest_from ht hf hb hr
  refine ⟨tokensOf pre ++ [brace], tokensOf inside ++ closer :: tokensOf post, behind', lead, trail, ?_, ?_,
    ?_, ?_, ?_, hte, hl, htr⟩
  · rw [ht, tokens_around hf]
  · rw [ht', append_assoc, singleton_append]
  · rw [h, hs]
  · rw [fieldFunctionBody_eq, codeNodes_eq_some_iff.2 ⟨_, _, ht', hf', rfl⟩, bind_some, hfi, map_some, hs]
  · rw [codeForms_eq_filter, hfo, ← codeForms_eq_filter, codeForms_append, hc', hc, codeForms_append, append_assoc]

end Insertion

def withFirst (name stmt text : String) : String :=
  match fieldFunctionBody text name with
  | none => text
  | some offset =>
    String.ofList (takeBytes offset text.toList) ++ bodyInsertion stmt (dropBytes offset text.toList) ++
      String.ofList (dropBytes offset text.toList)

lemma exists_bodyInsertion (stmt : String) (r : List Char) : ∃ lead trail, lead ≠ [] ∧ IsGap lead ∧ IsGap trail ∧
    (bodyInsertion stmt r).toList = lead ++ (stmt.toList ++ trail) := by
  have hs : IsGap [' '] := by simpa [IsGap] using show isGap ' ' = true by decide
  have hl : IsGap ['\n'] := by simpa [IsGap] using show isGap '\n' = true by decide
  have hn : IsGap [] := by simp [IsGap]
  unfold bodyInsertion
  dsimp only
  split
  · exact ⟨['\n'], [], by simp, hl, hn, by simp⟩
  · split
    · exact ⟨[' '], [], by simp, hs, hn, by simp⟩
    · exact ⟨[' '], [' '], by simp, hs, hs, by simp⟩

lemma gainsFirst_withFirst {name stmt text : String} {sn : List Node} (hc : ReadsClosed stmt sn)
    (hco : (codeOf stmt).map form = codeForms (tokensOf sn)) (h : (fieldFunctionBody text name).isSome) :
    GainsFirst name stmt text (withFirst name stmt text) := by
  obtain ⟨offset, ho⟩ := isSome_iff_exists.1 h
  obtain ⟨lead, trail, hn, hl, ht, hin⟩ := exists_bodyInsertion stmt (dropBytes offset text.toList)
  refine gainsFirst_insertion hc hco ho hn hl ht ?_
  simp [withFirst, ho, hin]

lemma Form.endsBefore_past {f : Form} {fresh : Bool} {d : Char} {v : List Char} (hd : isNeutral d)
    (h : f.endsBefore fresh (v ++ [d])) (r : List Char) : f.endsBefore fresh (v ++ d :: r) := by
  by_cases hl : v = [] ∧ (f.kind = .blank ∨ f.kind = .lineComment)
  · obtain ⟨rfl, hk⟩ := hl
    obtain ⟨kind, x⟩ := f
    rcases hk with rfl | rfl
    · exact h
    · exact h
  · have hv : v ≠ [] ∨ f.kind ≠ .blank ∧ f.kind ≠ .lineComment := by tauto
    exact endsBefore_append_neutral (endsBefore_of_append h fun _ => by simp [isDigit_of_isNeutral hd]) hd hv

lemma Reads.append_semicolon {rest cs : List Char} {fs gs : List Form} {fresh slash : Bool}
    (hr : Reads false true rest gs) (h : Reads fresh slash cs (fs ++ [⟨.punct, [';']⟩])) :
    Reads fresh slash (cs ++ rest) (fs ++ ⟨.punct, [';']⟩ :: gs) := by
  induction fs generalizing fresh slash cs with
  | nil =>
    obtain rfl : [';'] = cs := by simpa using h.flatMap_text
    exact .cons (lexes_single (by simp) rest) hr
  | cons f fs ih =>
    obtain ⟨r, hf, hm⟩ := h.uncons
    have ht : r = fs.flatMap Form.text ++ [';'] := by simpa using hm.flatMap_text.symm
    have he : f.endsBefore fresh (r ++ rest) := by
      have he := hf.endsBefore
      rw [ht] at he
      rw [ht, append_assoc]
      exact Form.endsBefore_past (by decide) he rest
    have hl := hf.before he
    rw [← append_assoc, hf.append_eq] at hl
    exact .cons hl (ih hm)

lemma readsClosed_of_semicolon {stmt : String} {ts : List Token} {sn : List Node} (ht : tokenize stmt = .ok ts)
    (hf : forest stmt ts = .ok sn) (hl : ts.getLast?.any (·.isPunct ";")) (hm : ¬ ['#', '!'] <+: stmt.toList) :
    ReadsClosed stmt sn ∧ (codeOf stmt).map form = codeForms (tokensOf sn) := by
  have hn : ∀ tail, stmt.toList ≠ '#' :: '!' :: tail := fun tail he => hm ⟨tail, he.symm⟩
  have hs : Reads false true stmt.toList (ts.map form) := (tokenize_eq_ok_iff.1 ⟨ts, ht, rfl⟩).anywhere (.inl rfl) (.inr hn)
  have hto := tokensOf_forest hf
  refine ⟨⟨balanced_forest hf, fun rest fs hr => ?_⟩, by rw [codeOf, ht, hto, codeForms]⟩
  rcases eq_nil_or_concat' ts with rfl | ⟨ts, t, rfl⟩
  · simp at hl
  · have hp : t.form = ⟨.punct, [';']⟩ := by
      obtain ⟨hk, hx⟩ := Token.isPunct_iff.1 (by simpa using hl)
      rw [form, hk, hx]
      rfl
    rw [map_append, map_singleton, hp] at hs
    simpa [hto, hp] using hr.append_semicolon hs

lemma findIdx?_set {α : Type} {p : α → Bool} {l : List α} {i : Nat} {a b : α} (h : l[i]? = some a) (hp : p b = p a) :
    (l.set i b).findIdx? p = l.findIdx? p := by
  have hm : (l.set i b).map p = l.map p := by
    obtain ⟨hi, rfl⟩ := List.getElem?_eq_some_iff.1 h
    rw [map_set, hp, ← map_set, set_getElem_self]
  simpa only [findIdx?_map, Function.id_comp] using congrArg (findIdx? id) hm

/-- A statement that ends in a semicolon is put into a member exactly when that is a field of this name with a function,
whose text gains it as the first statement. -/
theorem prepend_gainsFirst {stmt : String} {ts : List Token} {pairs : List (Option Nat)}
    (ht : tokenize stmt = .ok ts) (hb : matchBrackets stmt ts = .ok pairs)
    (hl : ts.getLast?.any (·.isPunct ";") = true) (hm : ¬ ['#', '!'] <+: stmt.toList)
    (c : ClassDecl) (position : Nat) (name : String) :
    match c.prependToFieldFunction? position name stmt with
    | none => ∀ blank text, c.members[position]? = some ⟨blank, .other text⟩ → fieldFunctionBody text name = none
    | some c' => ∃ blank text text', c.members[position]? = some ⟨blank, .other text⟩ ∧ GainsFirst name stmt text text' ∧
        c' = { c with members := c.members.set position ⟨blank, .other text'⟩ } ∧
        c'.findFieldFunction name = c.findFieldFunction name := by
  obtain ⟨sn, hf, -⟩ := bind_eq_ok.1 hb
  obtain ⟨hc, hco⟩ := readsClosed_of_semicolon ht hf hl hm
  cases he : c.members[position]? with
  | none => simp [ClassDecl.prependToFieldFunction?, he]
  | some m =>
    obtain ⟨blank, content⟩ := m
    cases content with
    | method f => simp [ClassDecl.prependToFieldFunction?, he]
    | other text =>
      cases ho : fieldFunctionBody text name with
      | none => simp [ClassDecl.prependToFieldFunction?, he, ho]
      | some offset =>
        have hv : c.prependToFieldFunction? position name stmt =
            some { c with members := c.members.set position ⟨blank, .other (withFirst name stmt text)⟩ } := by
          simp [ClassDecl.prependToFieldFunction?, he, ho, withFirst]
        have hg : GainsFirst name stmt text (withFirst name stmt text) := gainsFirst_withFirst hc hco (by simp [ho])
        rw [hv]
        refine ⟨blank, text, withFirst name stmt text, rfl, hg, rfl, findIdx?_set he ?_⟩
        obtain ⟨_, _, _, _, _, -, -, -, hb', -⟩ := hg
        simp [hb', ho]

theorem prepend_gainsFirst_arrow :
    ∃ c' text', (ClassDecl.mk false "" "class A extends B" (some "A") (some "B")
        [⟨false, .other "f=()=>\x7b\x7d"⟩] "").prependToFieldFunction? 0 "f" "a(b);" = some c' ∧
      c'.members = [⟨false, .other text'⟩] ∧ GainsFirst "f" "a(b);" "f=()=>\x7b\x7d" text' := by
  have ht : tokenize "a(b);" =
      .ok [⟨.word, "a", 0⟩, ⟨.punct, "(", 1⟩, ⟨.word, "b", 2⟩, ⟨.punct, ")", 3⟩, ⟨.punct, ";", 4⟩] := by cbv
  have hbody : fieldFunctionBody "f=()=>\x7b\x7d" "f" = some 7 := by cbv
  have h := prepend_gainsFirst ht (by cbv) (by decide) (by simp)
    ⟨false, "", "class A extends B", some "A", some "B", [⟨false, .other "f=()=>\x7b\x7d"⟩], ""⟩ 0 "f"
  split at h
  · have hn := h false _ rfl
    rw [hbody] at hn
    cases hn
  · rename_i c' hc
    obtain ⟨blank, text, text', hm, hg, rfl, -⟩ := h
    cases hm
    exact ⟨_, text', hc, rfl, hg⟩

end CustomElement.Script
