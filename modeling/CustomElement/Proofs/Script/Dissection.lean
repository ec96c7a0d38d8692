import CustomElement.Proofs.Script.Stretches

/-!
# What the statement tree keeps of a script

The texts of a statement tree (`Module.texts`) are runs of balanced nodes of the script, without the blanks at their
ends. Between them stand blanks and the tokens that the tree leaves out (`Omitted`).
-/

namespace CustomElement.Script

open List Text

variable {ns : List Node}

def Method.texts (m : Method) : List String :=
  m.head :: m.params :: m.between :: m.body.map Statement.text

def Member.texts (m : Member) : List String :=
  match m.content with
  | .method m => m.texts
  | .other text => [text]

def ClassDecl.texts (c : ClassDecl) : List String :=
  c.leading :: c.header :: (c.members.flatMap Member.texts ++ [c.trailing])

def Item.texts : Item → List String
  | .statement s => [s.text]
  | .classDecl c => c.texts

def Module.texts (m : Module) : List String := m.items.flatMap Item.texts

namespace MethodCut

def brackets (c : MethodCut) : List Token := [c.params.first, c.params.last, c.body.first, c.body.last]

end MethodCut

def MemberCut.leftOut : MemberCut → List Token
  | .gap _ => []
  | .lone semicolon => semicolon.tokens
  | .other .. => []
  | .method _ cut behind => cut.brackets ++ (tokensOf behind).filter fun t => t.kind != .blank

def ClassCut.leftOut (c : ClassCut) : List Token :=
  c.body.first :: ((cutMembers false c.body.inside).flatMap MemberCut.leftOut ++ [c.body.last])

def Piece.leftOut (p : Piece) : List Token :=
  match p.classCut? with
  | some c => c.leftOut
  | none => []

def leftOut (nodes : List Node) : List Token := (splitStatements false nodes).flatMap Piece.leftOut

def DeclaredIn (nodes : List Node) (c : ClassCut) : Prop :=
  ∃ p ∈ splitStatements false nodes, p.classCut? = some c

/-- The reasons for which a token of a script is in no text of its tree. -/
inductive Omitted (nodes : List Node) (t : Token) : Prop
  | classBrace {c : ClassCut} (hc : DeclaredIn nodes c) (ht : t ∈ [c.body.first, c.body.last])
      (hbrace : t.isPunct openBrace = true ∨ t.isPunct closeBrace = true)
  | methodBracket {c : ClassCut} {blank : Bool} {cut : MethodCut} {behind : List Node}
      (hc : DeclaredIn nodes c) (hcut : .method blank cut behind ∈ cutMembers false c.body.inside)
      (ht : t ∈ [cut.params.first, cut.params.last] ∧ (t.isPunct "(" = true ∨ t.isPunct ")" = true) ∨
        t ∈ [cut.body.first, cut.body.last] ∧ (t.isPunct openBrace = true ∨ t.isPunct closeBrace = true))
  | semicolon {c : ClassCut} (hc : DeclaredIn nodes c)
      (hcut : .lone (.leaf t) ∈ cutMembers false c.body.inside) (ht : t.isPunct ";" = true)
  | comment {c : ClassCut} {blank : Bool} {cut : MethodCut} {behind : List Node} (hc : DeclaredIn nodes c)
      (hcut : .method blank cut behind ∈ cutMembers false c.body.inside) (ht : t ∈ tokensOf behind)
      (hcomment : t.isComment = true) (hline : ∀ u ∈ tokensOf behind, u.hasNewline = false)

lemma first_last_of_isGroup {n : Node} {opener : String} (h : n.isGroup opener) (hn : n.Balanced) :
    n.first.isPunct opener ∧ n.last.isPunct (closerOf opener) := by
  cases hn with
  | leaf hop hc => cases h
  | @group o c ms hop hc hin =>
    have ho : o.text = opener := by
      simp only [Node.isGroup, Token.isPunct, and_eq_true, beq_iff_eq] at h
      exact h.2
    exact ⟨h, ho ▸ hc⟩

lemma onLine_of_mem_trailingComment (ns : List Node) : ∀ t ∈ tokensOf (ns.take (trailingComment ns)),
      t.hasNewline = false ∧ (t.kind = .blank ∨ t.isComment) := by
  have hl : ∀ {n : Node} {p : Token → Bool}, n.isLeaf p → ∃ t, n = .leaf t ∧ p t := by
    intro n p hn
    cases n with
    | leaf t => exact ⟨t, rfl, hn⟩
    | group o ms c => cases hn
  have hc : ∀ {n : Node}, (n.isLeaf fun t => t.isComment && !t.hasNewline) →
      ∀ t ∈ n.tokens, t.hasNewline = false ∧ (t.kind = .blank ∨ t.isComment) := by
    intro n hn
    obtain ⟨t, rfl, ht⟩ := hl hn
    simp only [and_eq_true, not_eq_true'] at ht
    simpa using ⟨ht.2, .inr ht.1⟩
  have hbl : ∀ {n : Node}, (n.isLeaf fun t => t.kind == .blank && !t.hasNewline) →
      ∀ t ∈ n.tokens, t.hasNewline = false ∧ (t.kind = .blank ∨ t.isComment) := by
    intro n hn
    obtain ⟨t, rfl, ht⟩ := hl hn
    simp only [and_eq_true, not_eq_true', beq_iff_eq] at ht
    simpa using ⟨ht.2, .inl ht.1⟩
  unfold trailingComment
  dsimp only
  split
  · split
    · rename_i a b r ha
      split
      · rename_i hb
        intro t ht
        simp only [take_succ_cons, take_zero, tokensOf_cons, tokensOf_nil, append_nil, mem_append] at ht
        exact ht.elim (hbl ha t) (hc hb t)
      · simp
    · split
      · rename_i ha
        simpa using hc ha
      · simp
  · split
    · rename_i ha
      simpa using hc ha
    · simp
  · simp

lemma behind_of_mem_cutMembers (bl : Bool) (ns : List Node) {b : Bool} {cut : MethodCut}
    {post : List Node} : .method b cut post ∈ cutMembers bl ns →
      ∃ aft : List Node, post = aft.take (trailingComment aft) := by
  fun_induction cutMembers bl ns with
  | case1 => simp
  | case2 bl n r hn ih => simpa using ih
  | case3 bl n r hn hl ih => simpa using ih
  | case4 bl n r hn hl ih =>
    intro h
    rcases mem_cons.1 h with hf | hm
    · unfold cutMember at hf
      split at hf
      · rename_i aft _
        cases hf
        exact ⟨aft, rfl⟩
      · cases hf
    · exact ih hm

def Trimmed (nodes : List Node) (text : String) : Prop :=
  ∃ g g', IsGap g ∧ IsGap g' ∧ (textOf nodes).toList = g ++ text.toList ++ g'

lemma Trimmed.refl (ns : List Node) : Trimmed ns (textOf ns) :=
  ⟨[], [], by simp [IsGap], by simp [IsGap], by simp⟩

lemma Trimmed.trim (ns : List Node) : Trimmed ns (trim (textOf ns)) :=
  exists_trim (textOf ns)

lemma Trimmed.trimEnd (ns : List Node) : Trimmed ns (trimEnd (textOf ns)) := by
  obtain ⟨g, hg, he⟩ := exists_trimEndList (textOf ns).toList
  exact ⟨[], g, by simp [IsGap], hg, by simpa [Text.trimEnd] using he⟩

/-- The tokens `all` are blanks, tokens that are left out, and balanced nodes under the texts. -/
inductive Dissected : (all : List Token) → (texts : List String) → (left : List Token) → Prop
  | nil : Dissected [] [] []
  | blank {t : Token} {all left : List Token} {texts : List String} (h : t.kind = .blank)
      (more : Dissected all texts left) : Dissected (t :: all) texts left
  | aside (t : Token) {all left : List Token} {texts : List String} (more : Dissected all texts left) :
      Dissected (t :: all) texts (t :: left)
  | excerpt {nodes : List Node} {text : String} {all left : List Token} {texts : List String}
      (hbalanced : ∀ n ∈ nodes, n.Balanced) (htext : Trimmed nodes text) (more : Dissected all texts left) :
      Dissected (tokensOf nodes ++ all) (text :: texts) left

namespace Dissected

variable {all all' left left' : List Token} {texts texts' : List String}

lemma append (h : Dissected all texts left) (h' : Dissected all' texts' left') :
    Dissected (all ++ all') (texts ++ texts') (left ++ left') := by
  induction h with
  | nil => exact h'
  | blank hbl _ ih => exact .blank hbl ih
  | aside t _ ih => exact .aside t ih
  | excerpt hb ht _ ih =>
    rw [append_assoc]
    exact .excerpt hb ht ih

lemma flatMap {α : Type*} {all left : α → List Token} {texts : α → List String} {as : List α}
    (h : ∀ a ∈ as, Dissected (all a) (texts a) (left a)) :
    Dissected (as.flatMap all) (as.flatMap texts) (as.flatMap left) := by
  induction as with
  | nil => exact .nil
  | cons a as ih =>
    exact (h a (by simp)).append (ih fun b hb => h b (mem_cons_of_mem a hb))

lemma single {x : String} (hb : ∀ n ∈ ns, n.Balanced) (ht : Trimmed ns x) : Dissected (tokensOf ns) [x] [] := by
  have h := Dissected.excerpt hb ht .nil
  rwa [append_nil] at h

lemma strewn (ts : List Token) : Dissected ts [] (ts.filter fun t => t.kind != .blank) := by
  induction ts with
  | nil => exact .nil
  | cons t ts ih =>
    by_cases hb : t.kind = .blank
    · rw [filter_cons_of_neg (by simp [hb])]
      exact .blank hb ih
    · rw [filter_cons_of_pos (by simp [hb])]
      exact .aside t ih

lemma left_sublist (h : Dissected all texts left) : left.Sublist all := by
  induction h with
  | nil => exact .slnil
  | blank _ _ ih => exact ih.cons _
  | aside t _ ih => exact ih.cons_cons t
  | excerpt _ _ _ ih => exact sublist_append_of_sublist_right ih

end Dissected

lemma dissected_scattered {texts : Piece → List String} {left : Piece → List Token} {ps : List Piece}
    (h : Scattered Node.isBlank (ps.map Piece.nodes) ns)
    (hp : ∀ p ∈ ps, Dissected (tokensOf p.nodes) (texts p) (left p)) :
    Dissected (tokensOf ns) (ps.flatMap texts) (ps.flatMap left) :=
  scattered_pieces .nil .blank .append h hp

lemma balanced_inside {n : Node} (h : n.Balanced) : ∀ m ∈ n.inside, m.Balanced := by
  cases h with
  | leaf _ _ => simp [Node.inside]
  | group _ _ hin => exact hin

lemma balanced_splitStatements (h : ∀ n ∈ ns, n.Balanced) {b : Bool} {p : Piece} (hp : p ∈ splitStatements b ns) :
    ∀ n ∈ p.nodes, n.Balanced := by
  obtain ⟨pre, aft, rfl⟩ := (scattered_splitStatements b ns).exists_of_mem (mem_map_of_mem hp)
  intro n hn
  exact h n (by simp [hn])

lemma dissected_statements (h : ∀ n ∈ ns, n.Balanced) : Dissected (tokensOf ns)
      (((splitStatements false ns).map Piece.statement).map Statement.text) [] := by
  have hb : Dissected (tokensOf ns)
      ((splitStatements false ns).flatMap fun p => [textOf p.nodes])
      ((splitStatements false ns).flatMap fun _ => []) :=
    dissected_scattered (scattered_splitStatements false ns) fun p hp =>
      Dissected.single (balanced_splitStatements h hp) (Trimmed.refl p.nodes)
  have hl : (splitStatements false ns).flatMap (fun _ => ([] : List Token)) = [] := by simp
  have ht : ((splitStatements false ns).flatMap fun p => [textOf p.nodes]) =
      ((splitStatements false ns).map Piece.statement).map Statement.text := by
    rw [map_map, map_eq_flatMap]
    rfl
  rwa [hl, ht] at hb

lemma MethodCut.dissected {c : MethodCut} (h : ∀ n ∈ c.nodes, n.Balanced)
    (hp : c.params.isGroup "(") (hb : c.body.isGroup openBrace) :
    Dissected (tokensOf c.nodes) c.method.texts c.brackets := by
  simp only [MethodCut.nodes, forall_mem_append, forall_mem_cons] at h
  obtain ⟨hh, hp', hbe, hb', -⟩ := h
  have he := (dissected_statements (balanced_inside hb')).append (.aside c.body.last .nil)
  rw [append_nil, nil_append] at he
  have hf := Dissected.excerpt hh (Trimmed.trim c.head) <| .aside c.params.first <|
    .excerpt (balanced_inside hp') (Trimmed.trim c.params.inside) <| .aside c.params.last <|
      .excerpt hbe (Trimmed.trim c.between) <| .aside c.body.first he
  simpa [MethodCut.nodes, tokens_of_isGroup hp, tokens_of_isGroup hb, Method.texts, MethodCut.method,
    methodOf, MethodCut.brackets] using hf

lemma MemberCut.dissected {cut : MemberCut} (h : ∀ n ∈ cut.nodes, n.Balanced) (hs : cut.Shaped) :
    Dissected (tokensOf cut.nodes) (cut.member?.toList.flatMap Member.texts) cut.leftOut := by
  cases cut with
  | gap node =>
    obtain ⟨t, ht, hk⟩ := tokens_of_isBlank hs
    simpa [MemberCut.nodes, ht, MemberCut.leftOut, MemberCut.member?] using Dissected.blank hk .nil
  | lone semicolon =>
    cases semicolon with
    | leaf t => simpa [MemberCut.nodes, MemberCut.leftOut, MemberCut.member?] using Dissected.aside t .nil
    | group o ms cl => cases hs
  | other blankBefore ns =>
    simpa [MemberCut.nodes, MemberCut.leftOut, MemberCut.member?, Member.texts] using
      Dissected.single h (Trimmed.refl ns)
  | method blankBefore c post =>
    obtain ⟨-, hp, hb, -⟩ := hs
    have hm := (MethodCut.dissected (fun n hn => h n (by simp [MemberCut.nodes, hn])) hp hb).append
      (Dissected.strewn (tokensOf post))
    simpa [MemberCut.nodes, MemberCut.leftOut, MemberCut.member?, Member.texts, MethodCut.method] using hm

lemma dissected_members (h : ∀ n ∈ ns, n.Balanced) : Dissected (tokensOf ns) ((splitMembers false ns).flatMap Member.texts)
      ((cutMembers false ns).flatMap MemberCut.leftOut) := by
  have hno := flatMap_cutMembers false ns
  have hb : ∀ cut ∈ cutMembers false ns, ∀ n ∈ cut.nodes, n.Balanced := by
    intro cut hc n hn
    apply h
    rw [← hno]
    exact mem_flatMap.2 ⟨cut, hc, hn⟩
  have hp := Dissected.flatMap fun cut hc =>
    MemberCut.dissected (hb cut hc) (shaped_cutMembers false ns cut hc)
  rw [← tokensOf_flatMap, hno] at hp
  rwa [splitMembers_eq, filterMap_eq_flatMap_toList, flatMap_assoc]

lemma ClassCut.dissected {c : ClassCut} {d : ClassDecl}
    (h : ∀ n ∈ c.leading ++ (c.header ++ c.body :: c.trailing), n.Balanced)
    (hb : c.body.isGroup openBrace) (hl : d.leading = trim (textOf c.leading))
    (hh : d.header = trimEnd (textOf c.header)) (hm : d.members = splitMembers false c.body.inside)
    (ht : d.trailing = trim (textOf c.trailing)) :
    Dissected (tokensOf (c.leading ++ (c.header ++ c.body :: c.trailing))) d.texts c.leftOut := by
  simp only [forall_mem_append, forall_mem_cons] at h
  obtain ⟨hl', hh', hb', ht'⟩ := h
  have he := (dissected_members (balanced_inside hb')).append <|
    .aside c.body.last (Dissected.single ht' (Trimmed.trim c.trailing))
  have hw := Dissected.excerpt hl' (Trimmed.trim c.leading) <|
    .excerpt hh' (Trimmed.trimEnd c.header) <| .aside c.body.first he
  simpa [tokens_of_isGroup hb, ClassDecl.texts, hl, hh, hm, ht, ClassCut.leftOut] using
    hw

lemma Piece.dissected {p : Piece} (h : ∀ n ∈ p.nodes, n.Balanced) :
    Dissected (tokensOf p.nodes) p.item.texts p.leftOut := by
  unfold Piece.leftOut
  cases hc : p.classCut? with
  | none =>
    rw [Piece.item_of_classCut_eq_none hc]
    exact Dissected.single h (Trimmed.refl p.nodes)
  | some c =>
    obtain ⟨hn, -, -, hb⟩ := Piece.classCut?_eq_some hc
    obtain ⟨d, hit, -, hl, hh, hm, ht⟩ := Piece.item_of_classCut hc
    rw [hn] at h ⊢
    rw [hit]
    exact ClassCut.dissected h hb hl hh hm ht

lemma dissected_module (h : ∀ n ∈ ns, n.Balanced) :
    Dissected (tokensOf ns) (Module.texts ⟨(splitStatements false ns).map Piece.item⟩) (leftOut ns) := by
  rw [Module.texts, flatMap_map]
  exact dissected_scattered (scattered_splitStatements false ns) fun p hp =>
    Piece.dissected (balanced_splitStatements h hp)

lemma omitted_of_mem_member {c : ClassCut} (hc : DeclaredIn ns c) (hb : ∀ n ∈ c.body.inside, n.Balanced)
    {cut : MemberCut} (hcu : cut ∈ cutMembers false c.body.inside) {t : Token} (ht : t ∈ cut.leftOut) :
    Omitted ns t := by
  have hs := shaped_cutMembers false c.body.inside cut hcu
  have hno : ∀ n ∈ cut.nodes, n.Balanced := by
    intro n hn
    apply hb
    rw [← flatMap_cutMembers false c.body.inside]
    exact mem_flatMap.2 ⟨cut, hcu, hn⟩
  cases cut with
  | gap node => cases ht
  | lone semicolon =>
    cases semicolon with
    | leaf u =>
      obtain rfl : t = u := by simpa [MemberCut.leftOut] using ht
      exact .semicolon hc hcu hs
    | group o ms cl => cases hs
  | other blankBefore ns => cases ht
  | method blankBefore m post =>
    obtain ⟨-, hp, hbo, -⟩ := hs
    obtain ⟨hop, hcl⟩ := first_last_of_isGroup hp
      (hno m.params (by simp [MemberCut.nodes, MethodCut.nodes]))
    obtain ⟨hop', hcl'⟩ := first_last_of_isGroup hbo
      (hno m.body (by simp [MemberCut.nodes, MethodCut.nodes]))
    simp only [MemberCut.leftOut, mem_append, mem_filter] at ht
    rcases ht with ht | ⟨ht, hk⟩
    · refine .methodBracket hc hcu ?_
      simp only [MethodCut.brackets, mem_cons, not_mem_nil, or_false] at ht ⊢
      rcases ht with rfl | rfl | rfl | rfl
      · exact .inl ⟨.inl rfl, .inl hop⟩
      · exact .inl ⟨.inr rfl, .inr hcl⟩
      · exact .inr ⟨.inl rfl, .inl hop'⟩
      · exact .inr ⟨.inr rfl, .inr hcl'⟩
    · obtain ⟨aft, rfl⟩ := behind_of_mem_cutMembers false c.body.inside hcu
      have ho := onLine_of_mem_trailingComment aft
      have hco := (ho t ht).2.resolve_left (by simpa using hk)
      exact .comment hc hcu ht hco fun u hu => (ho u hu).1

lemma mem_leftOut_iff {nodes : List Node} (h : ∀ n ∈ nodes, n.Balanced) {t : Token} :
    t ∈ leftOut nodes ↔ Omitted nodes t := by
  constructor
  · intro ht
    obtain ⟨p, hp, ht⟩ := mem_flatMap.1 ht
    unfold Piece.leftOut at ht
    cases hcu : p.classCut? with
    | none => simp [hcu] at ht
    | some c =>
      have hc : DeclaredIn nodes c := ⟨p, hp, hcu⟩
      obtain ⟨hn, -, -, hbo⟩ := Piece.classCut?_eq_some hcu
      have hb : c.body.Balanced := balanced_splitStatements h hp c.body (by simp [hn])
      obtain ⟨ho, hcs⟩ := first_last_of_isGroup hbo hb
      simp only [hcu, ClassCut.leftOut, mem_cons, mem_append, mem_flatMap, not_mem_nil, or_false] at ht
      rcases ht with rfl | ⟨cut, hme, ht⟩ | rfl
      · exact .classBrace hc (by simp) (.inl ho)
      · exact omitted_of_mem_member hc (balanced_inside hb) hme ht
      · exact .classBrace hc (by simp) (.inr hcs)
  · intro ht
    have hcl : ∀ {c : ClassCut}, DeclaredIn nodes c → t ∈ c.leftOut → t ∈ leftOut nodes := by
      rintro c ⟨p, hp, hcu⟩ ht
      exact mem_flatMap.2 ⟨p, hp, by simpa [Piece.leftOut, hcu] using ht⟩
    have hm : ∀ {c : ClassCut} {cut : MemberCut}, DeclaredIn nodes c →
        cut ∈ cutMembers false c.body.inside → t ∈ cut.leftOut → t ∈ leftOut nodes := by
      intro c cut hc hcu ht
      refine hcl hc ?_
      simp only [ClassCut.leftOut, mem_cons, mem_append, mem_flatMap]
      exact .inr (.inl ⟨cut, hcu, ht⟩)
    cases ht with
    | classBrace hc ht _ =>
      refine hcl hc ?_
      simp only [mem_cons, not_mem_nil, or_false] at ht
      rcases ht with rfl | rfl <;> simp [ClassCut.leftOut]
    | methodBracket hc hcu ht =>
      refine hm hc hcu (mem_append_left _ ?_)
      simp only [mem_cons, not_mem_nil, or_false] at ht
      rcases ht with ⟨rfl | rfl, -⟩ | ⟨rfl | rfl, -⟩ <;> simp [MethodCut.brackets]
    | semicolon hc hcu ht => exact hm hc hcu (by simp [MemberCut.leftOut])
    | comment hc hcu ht hco hl =>
      refine hm hc hcu (mem_append_right _ (mem_filter.2 ⟨ht, ?_⟩))
      simp only [Token.isComment, or_eq_true, beq_iff_eq] at hco
      rcases hco with hk | hk <;> simp [hk]

end CustomElement.Script
