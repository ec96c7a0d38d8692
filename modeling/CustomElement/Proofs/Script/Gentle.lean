import CustomElement.Proofs.Script.Beats

/-!
# What reading does not notice

Reading the statement tree looks at the kinds and texts of tokens. So a map of tokens that keeps these (`Gentle`) may
be applied before or after reading.
-/

namespace CustomElement.Script

open List Text

mutual

def Node.map (f : Token → Token) : Node → Node
  | .leaf t => .leaf (f t)
  | .group opener inside closer => .group (f opener) (Node.mapAll f inside) (f closer)

def Node.mapAll (f : Token → Token) : List Node → List Node
  | [] => []
  | n :: ns => n.map f :: Node.mapAll f ns

end

lemma Node.mapAll_eq (f : Token → Token) (ns : List Node) : Node.mapAll f ns = ns.map (Node.map f) := by
  induction ns with
  | nil => rw [Node.mapAll, map_nil]
  | cons n ns ih => rw [Node.mapAll, ih, map_cons]

@[simp] lemma Node.map_leaf (f : Token → Token) (t : Token) : (Node.leaf t).map f = .leaf (f t) := by
  rw [Node.map]

@[simp] lemma Node.map_group (f : Token → Token) (o c : Token) (ms : List Node) :
    (Node.group o ms c).map f = .group (f o) (ms.map (Node.map f)) (f c) := by
  rw [Node.map, Node.mapAll_eq]

lemma Node.tokensOf_map (f : Token → Token) (ns : List Node) :
    Node.tokensOf (ns.map (Node.map f)) = (Node.tokensOf ns).map f := by
  induction ns using Node.forest_induction with
  | nil => simp
  | leaf t ns ih => simp [ih]
  | group o ms c ns hm ih => simp [hm, ih]

section Maps

variable (f : Token → Token) (n : Node)

@[simp] lemma Node.first_map : (n.map f).first = f n.first := by
  cases n <;> simp [Node.first]

@[simp] lemma Node.inside_map : (n.map f).inside = n.inside.map (Node.map f) := by
  cases n <;> simp [Node.inside]

lemma Node.isLeaf_map {p : Token → Bool} {n : Node} (hp : ∀ t, p (f t) = p t) : (n.map f).isLeaf p = n.isLeaf p := by
  cases n with
  | leaf t => rw [Node.map_leaf]; exact hp t
  | group o ms c => rw [Node.map_group]; rfl

export Node (isLeaf_map tokensOf_map map_group)

lemma Node.find?_map {p : Node → Bool} (hp : ∀ n : Node, p (n.map f) = p n) (ns : List Node) :
    (ns.map (Node.map f)).find? p = (ns.find? p).map (Node.map f) := by
  rw [List.find?_map, show p ∘ Node.map f = p from funext hp]

end Maps

lemma kind_first_of_lead {n : Node}
    (h : (n.isGroup openBrace || n.isLeaf fun t => t.kind == .word)) : n.first.kind ≠ .blank := by
  intro hb
  cases n with
  | leaf t =>
    have hw : t.kind = .word := by simpa [Node.isGroup, isLeaf] using h
    cases hb.symm.trans hw
  | group o ms c =>
    have hp : o.isPunct openBrace := by simpa [Node.isGroup, isLeaf] using h
    rw [isPunct_iff] at hp
    cases hb.symm.trans hp.1

structure Gentle (f : Token → Token) : Prop where
  kind : ∀ t, (f t).kind = t.kind
  text : ∀ t, (t.kind == .blank && t.hasNewline) = false → (f t).text = t.text
  hasNewline : ∀ t, (f t).hasNewline = t.hasNewline
  newlines : ∀ t, 2 ≤ (f t).newlines ↔ 2 ≤ t.newlines

namespace Gentle

variable {f : Token → Token} (hf : Gentle f)

include hf

lemma congr {α : Type} (p : Kind → String → α) (hb : ∀ a b, p .blank a = p .blank b) (t : Token) :
    p (f t).kind (f t).text = p t.kind t.text := by
  rw [hf.kind]
  by_cases h : t.kind = .blank
  · rw [h, hb _ t.text]
  · rw [hf.text t (by simp [h])]

lemma isPunct (t : Token) (text : String) : (f t).isPunct text = t.isPunct text :=
  hf.congr (fun kind s => kind == .punct && s == text) (fun _ _ => rfl) t

lemma isWord (t : Token) (text : String) : (f t).isWord text = t.isWord text :=
  hf.congr (fun kind s => kind == .word && s == text) (fun _ _ => rfl) t

lemma isOpener (t : Token) : (f t).isOpener = t.isOpener :=
  hf.congr (fun kind s => kind == .punct && (s == "(" || s == "[" || s == openBrace)) (fun _ _ => rfl) t

lemma isCloser (t : Token) : (f t).isCloser = t.isCloser :=
  hf.congr (fun kind s => kind == .punct && (s == ")" || s == "]" || s == closeBrace)) (fun _ _ => rfl) t

lemma isTrivia (t : Token) : (f t).isTrivia = t.isTrivia := by
  simp only [Token.isTrivia, hf.kind]

lemma isComment (t : Token) : (f t).isComment = t.isComment := by
  simp only [Token.isComment, hf.kind]

lemma canEndStatement (t : Token) : (f t).canEndStatement = t.canEndStatement :=
  hf.congr (fun kind s => Token.canEndStatement ⟨kind, s, 0⟩) (fun _ _ => rfl) t

lemma continuesExpression (t : Token) : (f t).continuesExpression = t.continuesExpression :=
  hf.congr (fun kind s => Token.continuesExpression ⟨kind, s, 0⟩) (fun _ _ => rfl) t

lemma needsGuard (t : Token) : Script.needsGuard (f t) = Script.needsGuard t :=
  hf.congr (fun kind s => Script.needsGuard ⟨kind, s, 0⟩) (fun _ _ => rfl) t

lemma wordIn (words : List String) (t : Token) :
    ((f t).kind == .word && words.contains (f t).text) = (t.kind == .word && words.contains t.text) :=
  hf.congr (fun kind s => kind == .word && words.contains s) (fun _ _ => rfl) t

lemma isGroup (n : Node) (opener : String) : (n.map f).isGroup opener = n.isGroup opener := by
  cases n with
  | leaf t => rw [Node.map_leaf]; rfl
  | group o ms c => rw [map_group]; exact hf.isPunct o opener

lemma nodeIsTrivia (n : Node) : (n.map f).isTrivia = n.isTrivia := by
  cases n with
  | leaf t => rw [Node.map_leaf]; exact hf.isTrivia t
  | group o ms c => rw [map_group]; rfl

lemma isBlank (n : Node) : (n.map f).isBlank = n.isBlank :=
  isLeaf_map f fun t => by rw [hf.kind]

lemma isLeafPunct (n : Node) (text : String) :
    ((n.map f).isLeaf fun t => t.isPunct text) = n.isLeaf fun t => t.isPunct text :=
  isLeaf_map f fun t => hf.isPunct t text

lemma isLeafWord (n : Node) : ((n.map f).isLeaf fun t => t.kind == .word) = n.isLeaf fun t => t.kind == .word :=
  isLeaf_map f fun t => by rw [hf.kind]

lemma nextCode (ns : List Node) : Script.nextCode (ns.map (Node.map f)) = (Script.nextCode ns).map f := by
  have hc : ∀ n : Node, (!(n.map f).isTrivia) = !n.isTrivia := fun n => by rw [hf.nodeIsTrivia]
  rw [Script.nextCode, Node.find?_map f hc, Script.nextCode, Option.map_map, Option.map_map]
  congr 1
  funext n
  exact n.first_map f

lemma pass (d : Decorator) (n : Node) : d.pass (n.map f) = d.pass n := by
  cases d <;> simp only [Decorator.pass, hf.isLeafWord, hf.isLeafPunct, hf.isGroup]

lemma leadWord (d : Decorator) (ns : List Node) : Script.leadWord d (ns.map (Node.map f)) = Script.leadWord d ns := by
  induction ns generalizing d with
  | nil => rfl
  | cons n ns ih =>
    have hw : ((n.map f).isLeaf fun t => t.kind == .word && ["export", "default", "async"].contains t.text) =
        n.isLeaf fun t => t.kind == .word && ["export", "default", "async"].contains t.text :=
      isLeaf_map f (hf.wordIn _)
    rw [map_cons, Script.leadWord, Script.leadWord, hf.nodeIsTrivia, hf.pass, hf.isLeafPunct, hw, hf.isGroup, hf.isLeafWord]
    simp only [ih]
    split
    · rfl
    · rename_i hc
      split
      · rfl
      · split
        · rfl
        · split
          · rfl
          · split
            · rename_i hl
              rw [n.first_map, hf.text _ (by simp [kind_first_of_lead hl]), length_map]
            · rfl

lemma breakEnds (last hdr next : Option Token) :
    Script.breakEnds (last.map f) (hdr.map f) (next.map f) = Script.breakEnds last hdr next := by
  have hh : ∀ hdr : Option Token, ((hdr.map f).any fun h =>
        h.kind == .word && ["if", "for", "while", "with"].contains h.text) =
      hdr.any fun h => h.kind == .word && ["if", "for", "while", "with"].contains h.text := by
    intro hdr
    rw [Option.any_map]
    congr 1
    funext t
    exact hf.wordIn _ t
  cases last with
  | none => rfl
  | some l =>
    cases next with
    | none => rfl
    | some n =>
      simp only [map_some, Script.breakEnds, hf.isPunct, hh, hf.canEndStatement, hf.continuesExpression]

lemma blockFollows (last : Option Token) : Script.blockFollows (last.map f) = Script.blockFollows last := by
  cases last with
  | none => rfl
  | some t => exact hf.congr (fun kind s => Script.blockFollows (some ⟨kind, s, 0⟩)) (fun _ _ => rfl) t

lemma continuesBlock (lead : Option String) (next : Option Token) :
    Script.continuesBlock lead (next.map f) = Script.continuesBlock lead next := by
  rw [Script.continuesBlock, Script.continuesBlock, Option.any_map]
  congr 1
  funext t
  exact hf.congr (fun kind s => kind == .word && (["else", "catch", "finally"].contains s ||
    (s == "while" && lead == some "do"))) (fun _ _ => rfl) t

lemma statementExtent (lead : Option String) (leadAt : Nat) (last hdr : Option Token) (ns : List Node) :
    Script.statementExtent lead leadAt (last.map f) (hdr.map f) (ns.map (Node.map f)) =
      Script.statementExtent lead leadAt last hdr ns := by
  induction ns generalizing last hdr with
  | nil => rfl
  | cons n ns ih =>
    have hm : ∀ t u, Script.statementExtent lead leadAt (some (f t)) u (ns.map (Node.map f)) = _ := fun t u => rfl
    cases n with
    | leaf t =>
      have hn := ih (some t) none
      rw [map_some, map_none] at hn
      simp only [map_cons, Node.map_leaf, Script.statementExtent, hf.kind, hf.hasNewline, length_map,
        hf.nextCode, hf.breakEnds, hf.isComment, hf.isPunct, ih last hdr, hn]
    | group o ms c =>
      have hc := ih (some c) last
      rw [map_some] at hc
      simp only [map_cons, map_group, Script.statementExtent, hf.isPunct, length_map,
        hf.blockFollows, hf.nextCode, hf.continuesBlock, hc]

lemma trimNodes (ns : List Node) : Script.trimNodes (ns.map (Node.map f)) = (Script.trimNodes ns).map (Node.map f) := by
  rw [Script.trimNodes, ← map_reverse, dropWhile_map, ← map_reverse,
    show Node.isBlank ∘ Node.map f = Node.isBlank from funext hf.isBlank]
  rfl

lemma statementLength (ns : List Node) : Script.statementLength (ns.map (Node.map f)) = Script.statementLength ns := by
  have he := fun lead leadAt => hf.statementExtent lead leadAt none none ns
  simp only [map_none] at he
  simp only [Script.statementLength, hf.leadWord, he, hf.trimNodes, length_map]

lemma trailingComment (ns : List Node) : Script.trailingComment (ns.map (Node.map f)) = Script.trailingComment ns := by
  have hb : ∀ n : Node, ((n.map f).isLeaf fun t => t.kind == .blank && !t.hasNewline) =
      n.isLeaf fun t => t.kind == .blank && !t.hasNewline := fun n =>
    isLeaf_map f fun t => by rw [hf.kind, hf.hasNewline]
  have hc : ∀ n : Node, ((n.map f).isLeaf fun t => t.isComment && !t.hasNewline) =
      n.isLeaf fun t => t.isComment && !t.hasNewline := fun n =>
    isLeaf_map f fun t => by rw [hf.isComment, hf.hasNewline]
  match ns with
  | [] => rfl
  | [a] => simp only [map_cons, map_nil, Script.trailingComment, hc]
  | a :: b :: _ => simp only [map_cons, Script.trailingComment, hc, hb]

lemma guardLength (ns : List Node) : Script.guardLength (ns.map (Node.map f)) = Script.guardLength ns := by
  cases ns with
  | nil => rfl
  | cons n ns =>
    have hg : ((Script.nextCode ns).map f).any Script.needsGuard = (Script.nextCode ns).any Script.needsGuard := by
      rw [Option.any_map]
      simp only [hf.needsGuard]
    have ht : ((ns.map (Node.map f)).takeWhile Node.isTrivia).length = (ns.takeWhile Node.isTrivia).length := by
      rw [takeWhile_map, length_map, show Node.isTrivia ∘ Node.map f = Node.isTrivia from
        funext hf.nodeIsTrivia]
    simp only [map_cons, Script.guardLength, hf.isLeafPunct, hf.nextCode, hg, ht]

lemma pieceLength (ns : List Node) : Script.pieceLength (ns.map (Node.map f)) = Script.pieceLength ns := by
  simp only [Script.pieceLength, hf.guardLength, ← map_drop, hf.statementLength, hf.trailingComment]

end Gentle

def Piece.map (f : Token → Token) (p : Piece) : Piece := ⟨p.nodes.map (Node.map f), p.blankBefore⟩

namespace Gentle

variable {f : Token → Token} (hf : Gentle f)

include hf

lemma spaced (n : Node) : decide (2 ≤ (n.map f).first.newlines) = decide (2 ≤ n.first.newlines) := by
  rw [n.first_map, decide_eq_decide]
  exact hf.newlines n.first

lemma splitStatements (b : Bool) (ns : List Node) :
    Script.splitStatements b (ns.map (Node.map f)) = (Script.splitStatements b ns).map (Piece.map f) := by
  fun_induction Script.splitStatements b ns with
  | case1 => rw [map_nil, Script.splitStatements, map_nil]
  | case2 b n r hn ih =>
    rw [map_cons, Script.splitStatements, hf.isBlank, if_pos hn, hf.spaced, ih]
  | case3 b n r hn len ih =>
    rw [map_cons, Script.splitStatements, hf.isBlank, if_neg hn, ← map_cons]
    simp only [hf.pieceLength, ← map_take, ← map_drop]
    rw [ih]
    rfl

lemma memberEnd (d : Decorator) (assigned : Bool) (last hdr : Option Token) (ns : List Node) :
    Script.memberEnd d assigned (last.map f) (hdr.map f) (ns.map (Node.map f)) =
      Script.memberEnd d assigned last hdr ns := by
  induction ns generalizing d assigned last hdr with
  | nil => rfl
  | cons n ns ih =>
    have hn := fun d assigned => ih d assigned none none
    have hs := fun d assigned t => ih d assigned (some t) none
    have hc := fun d assigned t => ih d assigned (some t) last
    simp only [map_none, map_some] at hn hs hc
    rw [map_cons]
    unfold Script.memberEnd
    rw [hf.nodeIsTrivia, hf.isBlank, n.first_map, hf.hasNewline, hf.nextCode, hf.breakEnds, hf.pass]
    cases n with
    | leaf t => simp only [Node.map_leaf, hf.isPunct, ih, hn, hs]
    | group o ms c => simp only [map_group, hf.isPunct, ih, hn, hc]

lemma signatureEnd (ns : List Node) : Script.signatureEnd (ns.map (Node.map f)) = Script.signatureEnd ns := by
  induction ns with
  | nil => rfl
  | cons n ns ih =>
    have hn : ((Script.nextCode ns).map f).any (fun t => t.isPunct openBrace || t.continuesExpression) =
        (Script.nextCode ns).any fun t => t.isPunct openBrace || t.continuesExpression := by
      rw [Option.any_map]
      congr 1
      funext t
      exact congrArg₂ _ (hf.isPunct t openBrace) (hf.continuesExpression t)
    rw [map_cons, Script.signatureEnd, Script.signatureEnd, hf.isGroup, hf.isLeafPunct, hf.isBlank, n.first_map,
      hf.hasNewline, hf.nextCode, hn, ih]

lemma undecorated (d : Decorator) (ns : List Node) :
    Script.undecorated d (ns.map (Node.map f)) = (Script.undecorated d ns).map (Node.map f) := by
  induction ns generalizing d with
  | nil => rfl
  | cons n ns ih =>
    rw [map_cons, Script.undecorated, Script.undecorated, hf.nodeIsTrivia, hf.pass, hf.isLeafPunct]
    simp only [ih]
    split
    · rfl
    · split
      · rfl
      · split <;> rfl

lemma length_readMember (ns : List Node) : (readMember (ns.map (Node.map f))).2 = (readMember ns).2 := by
  have he := hf.memberEnd .outside false none none ns
  rw [map_none] at he
  unfold readMember
  simp only [he, hf.trimNodes, length_map, ← map_drop, hf.trailingComment]
  cases Script.memberEnd .outside false none none ns with
  | params n =>
    dsimp only
    cases ns.drop n with
    | nil => rfl
    | cons params r =>
      simp only [map_cons, hf.signatureEnd]
      cases Script.signatureEnd r with
      | body m =>
        simp only [← map_drop]
        cases r.drop m with
        | nil => rfl
        | cons body aft => rfl
      | _ => rfl
  | _ => rfl

end Gentle

def MethodCut.map (f : Token → Token) (c : MethodCut) : MethodCut :=
  ⟨c.head.map (Node.map f), c.params.map f, c.between.map (Node.map f), c.body.map f⟩

def MemberCut.map (f : Token → Token) : MemberCut → MemberCut
  | .gap node => .gap (node.map f)
  | .lone semicolon => .lone (semicolon.map f)
  | .other blankBefore nodes => .other blankBefore (nodes.map (Node.map f))
  | .method blankBefore cut behind => .method blankBefore (cut.map f) (behind.map (Node.map f))

lemma MemberCut.isMember_map (f : Token → Token) (cut : MemberCut) : (cut.map f).isMember = cut.isMember := by
  cases cut <;> rfl

def ClassCut.map (f : Token → Token) (c : ClassCut) : ClassCut :=
  ⟨c.leading.map (Node.map f), c.header.map (Node.map f), c.body.map f, c.trailing.map (Node.map f)⟩

namespace Gentle

variable {f : Token → Token} (hf : Gentle f)

include hf

lemma methodCut? (ns : List Node) : Script.methodCut? (ns.map (Node.map f)) =
    (Script.methodCut? ns).map fun cut => (cut.1.map f, cut.2.map (Node.map f)) := by
  have he := hf.memberEnd .outside false none none ns
  rw [map_none] at he
  unfold Script.methodCut?
  rw [he]
  cases Script.memberEnd .outside false none none ns with
  | params n =>
    simp only [← map_drop, ← map_take]
    cases ns.drop n with
    | nil => rfl
    | cons params r =>
      simp only [map_cons, hf.signatureEnd]
      cases Script.signatureEnd r with
      | body m =>
        simp only [← map_drop, ← map_take]
        cases r.drop m with
        | nil => rfl
        | cons body aft => rfl
      | _ => rfl
  | _ => rfl

lemma cutMember (b : Bool) (ns : List Node) : Script.cutMember b (ns.map (Node.map f)) = (Script.cutMember b ns).map f := by
  unfold Script.cutMember
  rw [hf.methodCut?, hf.length_readMember]
  cases Script.methodCut? ns with
  | none => simp only [map_none, MemberCut.map, map_take]
  | some cut => simp only [map_some, MemberCut.map, hf.trailingComment, map_take]

lemma cutMembers (b : Bool) (ns : List Node) :
    Script.cutMembers b (ns.map (Node.map f)) = (Script.cutMembers b ns).map (MemberCut.map f) := by
  fun_induction Script.cutMembers b ns with
  | case1 => rw [map_nil, Script.cutMembers, map_nil]
  | case2 b n r hn ih =>
    rw [map_cons, Script.cutMembers, hf.isBlank, if_pos hn, hf.spaced, ih]
    rfl
  | case3 b n r hn hl ih =>
    rw [map_cons, Script.cutMembers, hf.isBlank, if_neg hn, hf.isLeafPunct, if_pos hl, ih]
    rfl
  | case4 b n r hn hl ih =>
    rw [map_cons, Script.cutMembers, hf.isBlank, if_neg hn, hf.isLeafPunct, if_neg hl, ← map_cons,
      hf.cutMember, hf.length_readMember, ← map_drop, ih]
    rfl

lemma members (c : ClassCut) : (c.map f).members = c.members.map (MemberCut.map f) := by
  unfold ClassCut.members
  rw [ClassCut.map, Node.inside_map, hf.cutMembers, filter_map]
  simp only [comp_def, MemberCut.isMember_map]

lemma takeWhile_isGroup (o : String) (ns : List Node) : (ns.map (Node.map f)).takeWhile (fun n => !n.isGroup o) =
      (ns.takeWhile fun n => !n.isGroup o).map (Node.map f) := by
  rw [takeWhile_map]
  simp only [comp_def, hf.isGroup]

lemma classCut? (p : Piece) : (p.map f).classCut? = p.classCut?.map (ClassCut.map f) := by
  have hl : (p.nodes.map (Node.map f)).takeWhile Node.isTrivia = (p.nodes.takeWhile Node.isTrivia).map (Node.map f) := by
    rw [takeWhile_map, show Node.isTrivia ∘ Node.map f = Node.isTrivia from funext hf.nodeIsTrivia]
  have ha : ∀ leadAt, (p.map f).bodyAt leadAt = p.bodyAt leadAt := by
    intro leadAt
    simp only [Piece.bodyAt, Piece.map, length_map, ← map_drop, hf.takeWhile_isGroup]
  unfold Piece.classCut?
  rw [show (p.map f).nodes = p.nodes.map (Node.map f) from rfl, hf.leadWord]
  cases Script.leadWord .outside p.nodes with
  | none => rfl
  | some lead =>
    obtain ⟨w, leadAt⟩ := lead
    dsimp only
    split
    · rw [ha, getElem?_map]
      cases p.nodes[p.bodyAt leadAt]? with
      | none => rfl
      | some body =>
        simp only [map_some, Piece.cutAt, Piece.map, hl, length_map, ← map_take, ← map_drop, ClassCut.map]
    · rfl

end Gentle

def Token.bare (t : Token) : Token := { t with start := 0 }

lemma gentle_bare : Gentle Token.bare :=
  ⟨fun _ => rfl, fun _ _ => rfl, fun _ => rfl, fun _ => Iff.rfl⟩

lemma map_bare_of_map_form {ts us : List Token} (h : ts.map form = us.map form) :
    ts.map Token.bare = us.map Token.bare := by
  have hfo : Token.bare = (fun f : Form => ⟨f.kind, String.ofList f.text, 0⟩) ∘ form := by
    funext t
    simp [Token.bare, form]
  rw [hfo, ← map_map, h, map_map]

abbrev Node.bare : Node → Node := Node.map Token.bare

end CustomElement.Script
