import CustomElement.Proofs.Script.Gists
import CustomElement.Proofs.Script.Normalizing

/-!
# The line on which a class body opens

A declaration `class N extends E` is read as a class if its body opens on the line of its head. Behind a line break
the brace opens a statement of its own, unless the last word of `E` is one that leaves a statement unfinished
(`parseModule_classText`).
-/

namespace CustomElement.Script

open List Text

variable {fs : List Form} {path : List String} {word : String}

lemma Node.textOf_bare (ns : List Node) : textOf (ns.map Node.bare) = textOf ns := by
  rw [textOf, tokensOf_map, List.map_map]
  rfl

lemma readMethodName_bare (role : Option Role) (isStatic : Bool) (ns : List Node) :
    readMethodName role isStatic (ns.map Node.bare) = readMethodName role isStatic ns := by
  induction ns generalizing role isStatic with
  | nil => rfl
  | cons n ns ih =>
    have hm : ((ns.map Node.bare).head?.any fun m => !m.first.isPunct "<") = ns.head?.any fun m => !m.first.isPunct "<" := by
      cases ns with
      | nil => rfl
      | cons m ns => simp only [map_cons, head?_cons, any_some, Node.first_map, gentle_bare.isPunct]
    have hw : (n.bare.isLeaf fun t => t.kind == .word && methodModifiers.contains t.text) =
        n.isLeaf fun t => t.kind == .word && methodModifiers.contains t.text := isLeaf_map _ fun _ => rfl
    have ht : n.bare.first.text = n.first.text := by
      rw [Node.first_map]
      rfl
    rw [map_cons, readMethodName, readMethodName]
    simp only [hm, hw, gentle_bare.isLeafPunct, gentle_bare.isGroup, ht, ih, ← Node.textOf_bare [n], map_cons, map_nil]

lemma methodOf_bare (head params between body : List Node) :
    methodOf (head.map Node.bare) (params.map Node.bare) (between.map Node.bare) (body.map Node.bare) =
      methodOf head params between body := by
  simp only [methodOf, gentle_bare.undecorated, readMethodName_bare, Node.textOf_bare, gentle_bare.splitStatements, map_map]
  congr 1
  exact map_congr_left fun p _ => by rw [Function.comp_apply, Piece.statement, Piece.map, Node.textOf_bare, Piece.statement]

lemma MemberCut.member?_bare (cut : MemberCut) : (cut.map Token.bare).member? = cut.member? := by
  cases cut with
  | gap node => rfl
  | lone semicolon => rfl
  | other blankBefore nodes => simp only [MemberCut.map, member?, Node.textOf_bare]
  | method blankBefore c post => simp only [MemberCut.map, MethodCut.map, member?, Node.inside_map, methodOf_bare]

lemma splitMembers_bare (b : Bool) (ns : List Node) : splitMembers b (ns.map Node.bare) = splitMembers b ns := by
  rw [splitMembers_eq, gentle_bare.cutMembers, filterMap_map, splitMembers_eq]
  congr 1
  exact funext MemberCut.member?_bare

attribute [ext] ClassDecl

def ClassCut.decl (c : ClassCut) (blank : Bool) : ClassDecl where
  blankBefore := blank
  leading := trim (textOf c.leading)
  header := trimEnd (textOf c.header)
  name := className (clausesOf c.header)
  extended := (extendedNodes (clausesOf c.header)).map fun ns => trim (textOf ns)
  members := splitMembers false c.body.inside
  trailing := trim (textOf c.trailing)

lemma Piece.item_eq_decl {p : Piece} {c : ClassCut} (h : p.classCut? = some c) : p.item = .classDecl (c.decl p.blankBefore) := by
  obtain ⟨d, hd, hblank, hl, hh, hm, ht⟩ := Piece.item_of_classCut h
  obtain ⟨hname, he⟩ := Piece.clauses_of_classCut h hd
  rw [hd]
  exact congrArg Item.classDecl (ClassDecl.ext hblank hl hh hname he hm ht)

lemma ClassCut.decl_bare (c : ClassCut) (blank : Bool) : (c.map Token.bare).decl blank = c.decl blank := by
  simp only [decl, ClassCut.map, Node.textOf_bare, gentle_bare.clausesOf, gentle_bare.className, gentle_bare.extendedNodes,
    Option.map_map, comp_def, Node.inside_map, splitMembers_bare]

lemma Piece.item_bare (p : Piece) : (p.map Token.bare).item = p.item := by
  cases hc : p.classCut? with
  | none =>
    have hb : (p.map Token.bare).classCut? = none := by rw [gentle_bare.classCut?, hc, map_none]
    rw [Piece.item_of_classCut_eq_none hb, Piece.item_of_classCut_eq_none hc, Piece.statement, Piece.map,
      Node.textOf_bare, Piece.statement]
  | some c =>
    have hb : (p.map Token.bare).classCut? = some (c.map Token.bare) := by
      rw [gentle_bare.classCut?, hc, map_some]
    rw [Piece.item_eq_decl hb, Piece.item_eq_decl hc, ClassCut.decl_bare]
    rfl

lemma items_bare (ns : List Node) :
    (splitStatements false (ns.map Node.bare)).map Piece.item = (splitStatements false ns).map Piece.item := by
  rw [gentle_bare.splitStatements, map_map]
  exact map_congr_left fun p _ => p.item_bare

lemma parseModule_of_reads {src : String} {ns : List Node} (hn : ∀ n ∈ ns, n.Balanced)
    (h : Reads true true src.toList ((tokensOf ns).map form)) :
    parseModule src = .ok ⟨(splitStatements false ns).map Piece.item⟩ := by
  obtain ⟨tokens, htokens, hf⟩ := tokenize_eq_ok_iff.2 h
  obtain ⟨nodes, hnodes, hb⟩ := exists_forest hn hf src
  rw [← items_bare ns, ← hb, items_bare]
  exact bind_eq_ok.2 ⟨tokens, htokens, bind_eq_ok.2 ⟨nodes, hnodes, rfl⟩⟩

def classHead (name : String) (path : List String) : String := "class " ++ name ++ " extends " ++ ".".intercalate path

def classText (name : String) (path : List String) (gap members : String) : String :=
  classHead name path ++ gap ++ openBrace ++ members ++ closeBrace

def wordToken (word : String) : Token := ⟨.word, word, 0⟩

def blankToken (gap : String) : Token := ⟨.blank, gap, 0⟩

def pathTokens : List String → List Token
  | [] => []
  | [word] => [wordToken word]
  | word :: next :: path => wordToken word :: ⟨.punct, ".", 0⟩ :: pathTokens (next :: path)

def headTokens (name : String) (path : List String) : List Token :=
  [wordToken "class", blankToken " ", wordToken name, blankToken " ", wordToken "extends", blankToken " "] ++ pathTokens path

def bodyNode (inside : List Node) : Node := .group ⟨.punct, openBrace, 0⟩ inside ⟨.punct, closeBrace, 0⟩

def classNodes (name : String) (path : List String) (gap : String) (inside : List Node) : List Node :=
  (headTokens name path).map .leaf ++ [.leaf (blankToken gap), bodyNode inside]

lemma Node.tokensOf_leaves (ts : List Token) : tokensOf (ts.map .leaf) = ts := by
  induction ts with
  | nil => simp
  | cons t ts ih => simp [ih]

lemma charsOf_pathTokens (path : List String) : charsOf (pathTokens path) = (".".intercalate path).toList := by
  induction path using pathTokens.induct with
  | case1 => rfl
  | case2 word => simp [pathTokens, wordToken]
  | case3 word next path ih => simp [pathTokens, wordToken, ih, String.intercalate_cons_cons]

lemma charsOf_headTokens (name : String) (path : List String) :
    charsOf (headTokens name path) = (classHead name path).toList := by
  simp [headTokens, charsOf_pathTokens, wordToken, blankToken, classHead]

lemma InkEdged.startsInk_append {cs : List Char} (h : InkEdged cs) (r : List Char) : StartsInk (cs ++ r) := by
  obtain ⟨⟨c, a, rfl, hc⟩, -⟩ := h
  exact hc

lemma inkEdged_name (h : isName word) : InkEdged word.toList := by
  obtain ⟨c, cs, hw, -, hgap, ha⟩ := isName_iff.1 h
  rw [hw]
  refine inkEdged_of_forall hgap fun d hd => ?_
  by_contra hd'
  have hp := isWordPart_of_isGap (of_not_eq_false hd')
  rw [all_eq_true.1 ha d hd] at hp
  cases hp

lemma inkEdged_path (hne : path ≠ []) (hpath : ∀ word ∈ path, isName word) : InkEdged (".".intercalate path).toList := by
  induction path using pathTokens.induct with
  | case1 => exact absurd rfl hne
  | case2 word => simpa using inkEdged_name (hpath word (by simp))
  | case3 word next path ih =>
    obtain ⟨hw, hm⟩ := forall_mem_cons.1 hpath
    obtain ⟨⟨c, cs, hcs, hc⟩, -⟩ := inkEdged_name hw
    rw [String.intercalate_cons_cons, toList_append]
    refine ⟨⟨c, _, by rw [toList_append, hcs]; rfl, hc⟩, ?_⟩
    exact (ih (cons_ne_nil _ _) hm).endsInk.append _

lemma reads_path (hpath : ∀ word ∈ path, isName word) {sl : Bool} {r : List Char} (hr : r.head?.any isWordPart = false)
    (h : Reads false (slashThrough sl ((pathTokens path).map form)) r fs) :
    Reads false sl (charsOf (pathTokens path) ++ r) ((pathTokens path).map form ++ fs) := by
  induction path using pathTokens.induct generalizing sl with
  | case1 => exact h
  | case2 word =>
    have hc : charsOf (pathTokens [word]) = word.toList := append_nil _
    rw [hc]
    exact .cons (lexes_name (hpath word (by simp)) (.inl rfl) hr) h
  | case3 word next path ih =>
    obtain ⟨hw, hm⟩ := forall_mem_cons.1 hpath
    obtain ⟨c, cs, hn, hs, -, -⟩ := isName_iff.1 (hm next (by simp))
    have hb : (charsOf (pathTokens (next :: path)) ++ r).head? = some c := by
      cases path <;> simp [pathTokens, wordToken, hn]
    have hp : Lexes false ((wordToken word).form.slashNext sl) ('.' :: (charsOf (pathTokens (next :: path)) ++ r))
        ⟨.punct, ['.']⟩ (charsOf (pathTokens (next :: path)) ++ r) :=
      lexes_point (by rw [hb]; exact hs)
    have hf : Lexes false sl (word.toList ++ '.' :: (charsOf (pathTokens (next :: path)) ++ r))
        ⟨.word, word.toList⟩ ('.' :: (charsOf (pathTokens (next :: path)) ++ r)) :=
      lexes_name hw (.inl rfl) (show Option.any isWordPart (some '.') = false by decide)
    have ha := Reads.cons hf (.cons hp (ih hm h))
    simpa [pathTokens, wordToken, form] using ha

lemma Reads.lineComment_of_mark {sl : Bool} {tl : List Char} (h : Reads true sl ('#' :: '!' :: tl) fs) :
    ∃ f ∈ fs, f.kind = .lineComment := by
  obtain ⟨f, fs, rfl⟩ : ∃ f more, fs = f :: more := exists_cons_of_ne_nil fun hn => by simpa [hn] using h.isEmpty_eq
  obtain ⟨r, fst, -⟩ := h.uncons
  refine ⟨f, mem_cons_self, ?_⟩
  obtain ⟨kind, x⟩ := f
  obtain ⟨c, a, rfl⟩ := exists_cons_of_ne_nil fst.text_ne_nil
  obtain ⟨rfl, -⟩ := cons.inj fst.append_eq
  rw [lexes_plain_iff (by decide)] at fst
  exact fst.1.symm.trans (openingKind_eq_lineComment.2 (.inr ⟨rfl, rfl, rfl⟩))

section Text

variable {name gap members : String} {tokens : List Token} {nodes : List Node} (hname : isName name = true)
  (hne : path ≠ []) (hpath : ∀ word ∈ path, isName word = true) (hblank : gap.toList.all isBlank = true)
  (hgap : gap ≠ "") (htokens : tokenize members = .ok tokens) (hnodes : forest members tokens = .ok nodes)
  (hcomment : ∀ t ∈ tokens, t.isComment = false)

include htokens hcomment in
lemma reads_braced : Reads false true (members.toList ++ ['\x7d']) (tokens.map form ++ [⟨.punct, ['\x7d']⟩]) := by
  have hr := tokenize_eq_ok_iff.1 ⟨tokens, htokens, rfl⟩
  have hc' : ∀ f ∈ tokens.map form, f.kind ≠ .lineComment := by
    intro f hf hl
    obtain ⟨t, ht, rfl⟩ := mem_map.1 hf
    have hk : t.kind = .lineComment := hl
    simpa [Token.isComment, hk] using hcomment t ht
  have hfr : ∀ tail, members.toList ≠ '#' :: '!' :: tail := by
    intro tail hta
    rw [hta] at hr
    obtain ⟨f, hf, hl⟩ := hr.lineComment_of_mark
    exact hc' f hf hl
  have hin : StartsInk ['\x7d'] := show Option.any isGap (some '\x7d') = false by decide
  refine (hr.anywhere (.inl rfl) (.inr hfr)).append ?_ (by decide) fun f hf => ⟨?_, fun _ => hin⟩
  · exact .cons (lexes_bracket (by simp) []) (.nil _ _)
  · exact fun hl => absurd hl (hc' f (mem_of_getLast? hf))

lemma Reads.word_space {fr sl : Bool} {rest : List Char} (h : isName word)
    (hf : fr = false ∨ word.toList.head? ≠ some '#') (hr : StartsInk rest)
    (hm : Reads false ((wordToken word).form.slashNext sl) rest fs) :
    Reads fr sl (word.toList ++ ' ' :: rest) ((wordToken word).form :: (blankToken " ").form :: fs) := by
  have hs : Lexes false ((wordToken word).form.slashNext sl) (' ' :: rest) (blankToken " ").form rest :=
    lexes_blank (g := [' ']) (by simp) (by simp [IsGap]; decide) hr
  exact .cons (lexes_name h hf (show Option.any isWordPart (some ' ') = false by decide)) (.cons hs hm)

include hname hne hpath hblank hgap htokens hnodes hcomment in
lemma reads_classText :
    Reads true true (classText name path gap members).toList ((tokensOf (classNodes name path gap nodes)).map form) := by
  have hgapIs : IsGap gap.toList := by
    intro c hc
    simp [isGap, all_eq_true.1 hblank c hc]
  have hgapNe : gap.toList ≠ [] := by simpa using hgap
  have hbo : ∀ sl, Reads false sl ('\x7b' :: (members.toList ++ ['\x7d']))
      (⟨.punct, ['\x7b']⟩ :: (tokens.map form ++ [⟨.punct, ['\x7d']⟩])) := fun sl =>
    .cons (lexes_bracket (by simp) _) (reads_braced htokens hcomment)
  have hb : ∀ sl, Reads false sl (gap.toList ++ '\x7b' :: (members.toList ++ ['\x7d']))
      (⟨.blank, gap.toList⟩ :: ⟨.punct, ['\x7b']⟩ :: (tokens.map form ++ [⟨.punct, ['\x7d']⟩])) := fun sl =>
    .cons (lexes_blank hgapNe hgapIs (show Option.any isGap (some '\x7b') = false by decide)) (hbo _)
  have hp : (gap.toList ++ '\x7b' :: (members.toList ++ ['\x7d'])).head?.any isWordPart = false := by
    obtain ⟨c, cs, hc⟩ := exists_cons_of_ne_nil hgapNe
    rw [hc]
    exact isWordPart_of_isGap (hgapIs c (by simp [hc]))
  have hin : StartsInk (charsOf (pathTokens path) ++ (gap.toList ++ '\x7b' :: (members.toList ++ ['\x7d']))) := by
    rw [charsOf_pathTokens]
    exact (inkEdged_path hne hpath).startsInk_append _
  have he : ∀ sl, Reads false sl ("extends".toList ++ ' ' :: (charsOf (pathTokens path) ++
      (gap.toList ++ '\x7b' :: (members.toList ++ ['\x7d'])))) _ := fun sl =>
    .word_space (by decide) (.inl rfl) hin (reads_path hpath hp (hb _))
  have ha : Reads true true ("class".toList ++ ' ' :: (name.toList ++ ' ' :: ("extends".toList ++ ' ' ::
      (charsOf (pathTokens path) ++ (gap.toList ++ '\x7b' :: (members.toList ++ ['\x7d'])))))) _ :=
    .word_space (by decide) (.inr (by decide)) ((inkEdged_name hname).startsInk_append _)
      (.word_space hname (.inl rfl) ((inkEdged_name (by decide)).startsInk_append _) (he _))
  have ht : (classText name path gap members).toList = charsOf (headTokens name path) ++
      (gap.toList ++ '\x7b' :: (members.toList ++ ['\x7d'])) := by
    simp [classText, charsOf_headTokens, openBrace, closeBrace]
  have hf : (tokensOf (classNodes name path gap nodes)).map form = (headTokens name path).map form ++
        ⟨.blank, gap.toList⟩ :: ⟨.punct, ['\x7b']⟩ :: (tokens.map form ++ [⟨.punct, ['\x7d']⟩]) := by
    simp [classNodes, tokensOf_append, Node.tokensOf_leaves, bodyNode, tokensOf_forest hnodes, blankToken, form,
      openBrace, closeBrace]
  rw [ht, hf]
  simpa [headTokens, wordToken, blankToken] using ha

end Text

def Token.inLine (t : Token) : Bool := !t.isComment && !t.isPunct ";" && !(t.kind == .blank && t.hasNewline)

def lastCode (last : Option Token) (ts : List Token) : Option Token := ts.foldl (fun last t => t.orPrevious last) last

lemma lastCode_cons (last : Option Token) (t : Token) (ts : List Token) :
    lastCode last (t :: ts) = lastCode (t.orPrevious last) ts := rfl

lemma statementExtent_inLine {ts : List Token} (h : ∀ t ∈ ts, t.inLine) (lead : Option String) (leadAt : Nat)
    (last : Option Token) (r : List Node) : statementExtent lead leadAt last none (ts.map .leaf ++ r) =
      (statementExtent lead leadAt (lastCode last ts) none r).map (· + ts.length) := by
  induction ts generalizing last with
  | nil => simp [lastCode]
  | cons t ts ih =>
    obtain ⟨ht, hts⟩ := forall_mem_cons.1 h
    simp only [Token.inLine, and_eq_true, not_eq_true'] at ht
    obtain ⟨⟨hcomment, hp⟩, hb⟩ := ht
    have hs : statementExtent lead leadAt last none (.leaf t :: (ts.map .leaf ++ r)) =
        (statementExtent lead leadAt (t.orPrevious last) none (ts.map .leaf ++ r)).map (· + 1) := by
      rw [statementExtent]
      by_cases hblank : t.kind = .blank
      · have hn : t.hasNewline = false := by simpa [hblank] using hb
        simp [hblank, hn, orPrevious, Token.isTrivia]
      · have htr : t.isTrivia = false := by
          simpa [Token.isTrivia, Token.isComment, hblank] using hcomment
        simp [hblank, hcomment, hp, orPrevious, htr]
    rw [map_cons, cons_append, hs, ih hts, Option.map_map, lastCode_cons]
    congr 1

lemma lastCode_append (last : Option Token) (as bs : List Token) :
    lastCode last (as ++ bs) = lastCode (lastCode last as) bs := foldl_append

lemma lastCode_pathTokens (hne : path ≠ []) (last : Option Token) :
    lastCode last (pathTokens path) = some (wordToken (path.getLast hne)) := by
  induction path using pathTokens.induct generalizing last with
  | case1 => exact absurd rfl hne
  | case2 word => rfl
  | case3 word next path ih =>
    rw [getLast_cons (cons_ne_nil next path), ← ih (cons_ne_nil next path) (some ⟨.punct, ".", 0⟩)]
    rfl

lemma inLine_pathTokens (path : List String) : ∀ t ∈ pathTokens path, t.inLine := by
  induction path using pathTokens.induct with
  | case1 => simp [pathTokens]
  | case2 word => simp [pathTokens, wordToken, Token.inLine, Token.isComment, Token.isPunct]
  | case3 word next path ih =>
    simpa [pathTokens, wordToken, Token.inLine, Token.isComment, Token.isPunct] using ih

lemma inLine_headTokens (name : String) (path : List String) : ∀ t ∈ headTokens name path, t.inLine := by
  intro t ht
  rcases mem_append.1 ht with ht | ht
  · simp only [mem_cons, not_mem_nil, or_false] at ht
    rcases ht with rfl | rfl | rfl | rfl | rfl | rfl <;> rfl
  · exact inLine_pathTokens path t ht

section Cut

variable {name gap : String} (hne : path ≠ []) {inside : List Node}

def breaksOff (gap word : String) : Bool := gap.toList.contains '\n' && !unfinishedWords.contains word

lemma leadWord_classNodes : leadWord .outside (classNodes name path gap inside) =
    some ("class", (classNodes name path gap inside).length) := rfl

lemma length_classNodes (name : String) (path : List String) (gap : String) (inside : List Node) :
    (classNodes name path gap inside).length = (headTokens name path).length + 2 := by
  simp [classNodes]

lemma statementExtent_bodyNode (inside : List Node) (lead : Option String) (leadAt : Nat) (last : Option Token) :
    (statementExtent lead leadAt last none [bodyNode inside]).getD 1 = 1 := by
  rw [bodyNode, statementExtent]
  simp only [statementExtent]
  split <;> rfl

lemma statementLength_classNodes : statementLength (classNodes name path gap inside) =
    if breaksOff gap (path.getLast hne) then (headTokens name path).length else (headTokens name path).length + 2 := by
  have hh : 2 < (headTokens name path).length + 2 := by simp [headTokens]
  have hl : lastCode none (headTokens name path) = some (wordToken (path.getLast hne)) := by
    rw [headTokens, lastCode_append, lastCode_pathTokens hne]
  have hen : breakEnds (some (wordToken (path.getLast hne))) none (nextCode [bodyNode inside]) =
      !unfinishedWords.contains (path.getLast hne) := by
    simp [breakEnds, nextCode, bodyNode, Node.isTrivia, Node.first, wordToken, Token.isPunct, Token.canEndStatement,
      Token.continuesExpression]
  have ht : (trimNodes (classNodes name path gap inside)).length = (headTokens name path).length + 2 := by
    simp [trimNodes, classNodes, bodyNode, Node.isBlank, isLeaf]
  rw [statementLength, leadWord_classNodes, ht]
  simp only [map_some, getD_some, length_classNodes]
  rw [classNodes, statementExtent_inLine (inLine_headTokens name path), hl, statementExtent]
  simp only [blankToken, beq_self_eq_true, if_true, length_singleton, Token.hasNewline, hen, hh, decide_true, Bool.and_true]
  rw [← breaksOff]
  split
  · simp
  · have hb := statementExtent_bodyNode inside (some "class") ((headTokens name path).length + 2)
      (some (wordToken (path.getLast hne)))
    cases he : statementExtent (some "class") ((headTokens name path).length + 2)
        (some (wordToken (path.getLast hne))) none [bodyNode inside] with
    | none => rfl
    | some n =>
      rw [he] at hb
      obtain rfl : n = 1 := hb
      exact add_comm 2 _

lemma pieceLength_classNodes : pieceLength (classNodes name path gap inside) =
    if breaksOff gap (path.getLast hne) then (headTokens name path).length else (headTokens name path).length + 2 := by
  have hg : guardLength (classNodes name path gap inside) = 0 := rfl
  have hl : ((headTokens name path).map Node.leaf).length = (headTokens name path).length := length_map _
  rw [pieceLength]
  simp only [hg, zero_add, drop_zero]
  rw [statementLength_classNodes hne]
  split
  · rename_i hb
    have hn : '\n' ∈ gap.toList := by
      simp only [breaksOff, and_eq_true, contains_iff_mem] at hb
      exact hb.1
    rw [classNodes, ← hl, drop_left]
    simp [trailingComment, blankToken, isLeaf, Token.hasNewline, hn, Token.isComment]
  · rw [← length_classNodes name path gap inside, drop_length]
    rfl

lemma splitStatements_bodyNode (b : Bool) : splitStatements b [bodyNode inside] = [⟨[bodyNode inside], b⟩] := by
  have hl : pieceLength [bodyNode inside] = 1 := rfl
  rw [splitStatements, if_neg (by simp [bodyNode, Node.isBlank, isLeaf])]
  simp only [hl, take_one, head?_cons, Option.toList_some, Nat.sub_self, drop_zero]
  rw [splitStatements]

lemma splitStatements_classNodes : splitStatements false (classNodes name path gap inside) =
    if breaksOff gap (path.getLast hne) then
      [⟨(headTokens name path).map .leaf, false⟩, ⟨[bodyNode inside], 2 ≤ gap.toList.count '\n'⟩]
    else [⟨classNodes name path gap inside, false⟩] := by
  have hl : pieceLength (classNodes name path gap inside) = _ := pieceLength_classNodes hne
  have hp : 0 < pieceLength (classNodes name path gap inside) := by
    rw [hl]
    split <;> simp [headTokens]
  have hs : splitStatements false (classNodes name path gap inside) =
      ⟨(classNodes name path gap inside).take (pieceLength (classNodes name path gap inside)), false⟩ ::
        splitStatements false ((classNodes name path gap inside).drop (pieceLength (classNodes name path gap inside))) := by
    obtain ⟨rest, hr⟩ : ∃ rest, classNodes name path gap inside = .leaf (wordToken "class") :: rest := ⟨_, rfl⟩
    rw [hr] at hp ⊢
    rw [splitStatements, if_neg (by simp [wordToken, Node.isBlank, isLeaf])]
    obtain ⟨k, hk⟩ := Nat.exists_eq_add_of_lt hp
    rw [zero_add] at hk
    simp only [hk, Nat.add_sub_cancel, drop_succ_cons]
  have hle : ((headTokens name path).map Node.leaf).length = (headTokens name path).length := length_map _
  rw [hs, hl]
  split
  · rw [classNodes, ← hle, take_left, drop_left, splitStatements,
      if_pos (by simp [blankToken, Node.isBlank, isLeaf]), splitStatements_bodyNode]
    rfl
  · rw [← length_classNodes name path gap inside, take_length, drop_length, splitStatements]

lemma Piece.classCut?_of_clauses {clauses : List Node} (hc : ∀ n ∈ clauses, n.isGroup openBrace = false)
    (r : List Node) (hr : r.head?.all (fun n => n.isGroup openBrace)) (b : Bool) :
    Piece.classCut? ⟨.leaf (wordToken "class") :: (clauses ++ r), b⟩ =
      r.head?.map fun body => ⟨[], .leaf (wordToken "class") :: clauses, body, r.tail⟩ := by
  have ha : Piece.bodyAt ⟨.leaf (wordToken "class") :: (clauses ++ r), b⟩ ((clauses ++ r).length + 1) =
      ([Node.leaf (wordToken "class")] ++ clauses).length := Piece.bodyAt_eq (by simp) rfl hc hr
  have hl : leadWord .outside (.leaf (wordToken "class") :: (clauses ++ r)) =
      some ("class", (clauses ++ r).length + 1) := rfl
  rw [Piece.classCut?, hl]
  simp only [beq_self_eq_true, if_true, ha]
  cases r with
  | nil => simp
  | cons body r =>
    have ht : (Node.leaf (wordToken "class")).isTrivia = false := rfl
    simp [Piece.cutAt, ht, ← drop_drop]

lemma isGroup_of_mem_leaves (ts : List Token) (o : String) : ∀ n ∈ ts.map Node.leaf, n.isGroup o = false := by
  intro n hn
  obtain ⟨t, -, rfl⟩ := mem_map.1 hn
  rfl

lemma Piece.item_head : Piece.item ⟨(headTokens name path).map .leaf, false⟩ = .statement ⟨classHead name path, false⟩ := by
  have hcu : Piece.classCut? ⟨(headTokens name path).map .leaf, false⟩ = none := by
    have hc := isGroup_of_mem_leaves (headTokens name path).tail openBrace
    simpa [headTokens] using Piece.classCut?_of_clauses hc [] rfl false
  have ht : textOf ((headTokens name path).map .leaf) = classHead name path := by
    rw [← toList_inj, toList_textOf_eq_charsOf, Node.tokensOf_leaves, charsOf_headTokens]
  rw [Piece.item_of_classCut_eq_none hcu, Piece.statement, ht]

lemma Piece.item_bodyNode (b : Bool) :
    Piece.item ⟨[bodyNode inside], b⟩ = .statement ⟨openBrace ++ textOf inside ++ closeBrace, b⟩ := by
  have hc : Piece.classCut? ⟨[bodyNode inside], b⟩ = none := rfl
  have ht : textOf [bodyNode inside] = openBrace ++ textOf inside ++ closeBrace := by
    rw [← toList_inj, toList_textOf_eq_charsOf]
    simp [bodyNode, toList_textOf_eq_charsOf]
  rw [Piece.item_of_classCut_eq_none hc, Piece.statement, ht]

lemma Piece.classCut?_classNodes : Piece.classCut? ⟨classNodes name path gap inside, false⟩ =
    some ⟨[], ((headTokens name path).map .leaf) ++ [.leaf (blankToken gap)], bodyNode inside, []⟩ := by
  have hc := Piece.classCut?_of_clauses (isGroup_of_mem_leaves ((headTokens name path).tail ++ [blankToken gap]) openBrace)
    [bodyNode inside] rfl false
  have hnodes : classNodes name path gap inside = .leaf (wordToken "class") ::
      (((headTokens name path).tail ++ [blankToken gap]).map .leaf ++ [bodyNode inside]) := by
    simp [classNodes, headTokens]
  rw [hnodes, hc]
  simp [headTokens]

variable (hpath : ∀ word ∈ path, isName word = true) (hblank : gap.toList.all isBlank = true)

include hne hpath hblank in
lemma trimEnd_classHead : trimEnd (classHead name path ++ gap) = classHead name path := by
  obtain ⟨-, fr, c, ht, hc⟩ := inkEdged_path hne hpath
  have hh : (classHead name path).toList = ("class " ++ name ++ " extends ").toList ++ fr ++ [c] := by
    rw [classHead, toList_append, ht, append_assoc]
  rw [trimEnd, toList_append, trimEndList_append_of_blank hblank, hh,
    trimEndList_append_of_not_blank (not_isBlank_of_not_isGap hc),
    ← toList_inj, hh, toList_ofList]
  rfl

include hne hpath in
lemma trim_path : trim (" " ++ ".".intercalate path) = ".".intercalate path := by
  have ht : (" " ++ ".".intercalate path).toList = [' '] ++ ((".".intercalate path).toList ++ []) := by simp
  have hs : trimStartList [' '] = [] := by decide
  rw [← toList_inj, toList_trim_of_inkEdged ht (inkEdged_path hne hpath), hs, nil_append]
  exact append_nil _

lemma clausesOf_headTokens : clausesOf ((headTokens name path).map .leaf) = ((headTokens name path).drop 1).map .leaf := by
  have hl : leadWord .outside ((headTokens name path).map .leaf) = some ("class", (headTokens name path).length) := by
    simp [headTokens, wordToken, leadWord, Node.isTrivia, Token.isTrivia, Decorator.pass, isLeaf, Token.isPunct,
       Node.isGroup, Node.first]
  rw [clausesOf, hl]
  simp

lemma className_headTokens (hname : name ≠ "extends" ∧ name ≠ "implements") :
    className (clausesOf ((headTokens name path).map .leaf)) = some name := by
  rw [clausesOf_headTokens]
  simp [className, headTokens, blankToken, wordToken, Node.isTrivia, Token.isTrivia, isLeaf, hname, Node.first]

lemma isWord_pathTokens {t : Token} (ht : t ∈ pathTokens path) (hw : t.isWord word) : word ∈ path := by
  induction path using pathTokens.induct with
  | case1 => cases ht
  | case2 first =>
    obtain rfl : t = wordToken first := by simpa [pathTokens] using ht
    have hf : first = word := by simpa [wordToken, Token.isWord] using hw
    simp [hf]
  | case3 first next path ih =>
    rcases mem_cons.1 ht with rfl | ht
    · simp only [wordToken, Token.isWord, beq_self_eq_true, Bool.true_and, beq_iff_eq] at hw
      simp [hw]
    · rcases mem_cons.1 ht with rfl | ht
      · cases hw
      · exact mem_cons_of_mem _ (ih ht)

section Clauses

variable (hname : name ≠ "extends" ∧ name ≠ "implements")

include hname

lemma findIdx?_extends : (((headTokens name path).drop 1).map Node.leaf).findIdx? (fun n => n.isLeaf fun t => t.isWord "extends") =
    some 3 := by
  simp [headTokens, blankToken, wordToken, findIdx?_cons, isLeaf, Token.isWord, hname]

lemma isSome_extendedNodes_headTokens : (extendedNodes (clausesOf ((headTokens name path).map .leaf))).isSome := by
  rw [clausesOf_headTokens, extendedNodes, findIdx?_extends hname]
  rfl

lemma extendedNodes_headTokens (him : "implements" ∉ path) :
    extendedNodes (clausesOf ((headTokens name path).map .leaf)) = some ((blankToken " " :: pathTokens path).map .leaf) := by
  have hno : (((headTokens name path).drop 1).map Node.leaf).findIdx? (fun n => n.isLeaf fun t => t.isWord "implements") =
      none := by
    rw [findIdx?_eq_none_iff]
    intro n hn
    obtain ⟨t, ht, rfl⟩ := mem_map.1 hn
    simp only [headTokens, cons_append, nil_append, drop_succ_cons, drop_zero, mem_cons] at ht
    rcases ht with rfl | rfl | rfl | rfl | rfl | ht
    · rfl
    · simp [isLeaf, wordToken, Token.isWord, hname]
    · rfl
    · rfl
    · rfl
    · exact of_not_eq_true fun hw => him (isWord_pathTokens ht hw)
  rw [clausesOf_headTokens, extendedNodes, findIdx?_extends hname, hno]
  simp [headTokens]

end Clauses

def declaredClass (name : String) (path : List String) (inside : List Node) : ClassDecl where
  blankBefore := false
  leading := ""
  header := classHead name path
  name := some name
  extended := (extendedNodes (clausesOf ((headTokens name path).map .leaf))).map fun ns => trim (textOf ns)
  members := splitMembers false inside
  trailing := ""

include hblank in
lemma trim_append_blank (ns : List Node) : trim (textOf (ns ++ [.leaf (blankToken gap)])) = trim (textOf ns) := by
  have hc : (textOf (ns ++ [.leaf (blankToken gap)])).toList = (textOf ns).toList ++ gap.toList := by
    simp [toList_textOf_eq_charsOf, tokensOf_append, blankToken]
  rw [trim, hc, trimList, trimStartList, dropWhile_append, trim, trimList, trimStartList]
  split
  · rename_i he
    rw [isEmpty_iff.1 he, dropWhile_eq_nil_iff.2 (all_eq_true.1 hblank)]
  · rw [trimEndList_append_of_blank hblank]

include hne hpath hblank in
lemma Piece.item_classNodes (hname : name ≠ "extends" ∧ name ≠ "implements") :
    Piece.item ⟨classNodes name path gap inside, false⟩ = .classDecl (declaredClass name path inside) := by
  have ht : ∀ n ∈ [Node.leaf (blankToken gap)], n.isBlank := by simp [Node.isBlank, isLeaf, blankToken]
  obtain ⟨hn', he'⟩ := clausesOf_append_blank ((headTokens name path).map .leaf)
    (g := fun ns => trim (textOf ns)) ht (trim_append_blank hblank)
  have hte : textOf ((headTokens name path).map .leaf ++ [.leaf (blankToken gap)]) = classHead name path ++ gap := by
    rw [← toList_inj, toList_textOf_eq_charsOf, tokensOf_append, charsOf_append, Node.tokensOf_leaves, charsOf_headTokens]
    simp [blankToken]
  rw [Piece.item_eq_decl Piece.classCut?_classNodes]
  refine congrArg Item.classDecl (ClassDecl.ext rfl rfl ?_ ?_ he' rfl rfl)
  · rw [ClassCut.decl, hte, trimEnd_classHead hne hpath hblank]
    rfl
  · rw [ClassCut.decl, hn', className_headTokens hname]
    rfl

end Cut

lemma balanced_headTokens (name : String) (path : List String) : ∀ n ∈ (headTokens name path).map Node.leaf, n.Balanced := by
  have hpathTokens : ∀ t ∈ pathTokens path, t.isOpener = false ∧ t.isCloser = false := by
    induction path using pathTokens.induct with
    | case1 => simp [pathTokens]
    | case2 word => simp [pathTokens, wordToken, Token.isOpener, Token.isCloser]
    | case3 word next path ih =>
      simpa [pathTokens, wordToken, Token.isOpener, Token.isCloser, openBrace, closeBrace] using ih
  intro n hn
  obtain ⟨t, ht, rfl⟩ := mem_map.1 hn
  rcases mem_append.1 ht with ht | ht
  · simp only [mem_cons, not_mem_nil, or_false] at ht
    rcases ht with rfl | rfl | rfl | rfl | rfl | rfl <;> exact .leaf rfl rfl
  · exact .leaf (hpathTokens t ht).1 (hpathTokens t ht).2

lemma balanced_classNodes (name : String) (path : List String) (gap : String) {inside : List Node}
    (h : ∀ n ∈ inside, n.Balanced) : ∀ n ∈ classNodes name path gap inside, n.Balanced := by
  intro n hn
  simp only [classNodes, mem_append, mem_cons, not_mem_nil, or_false] at hn
  obtain hn | rfl | rfl := hn
  · exact balanced_headTokens name path n hn
  · exact .leaf rfl rfl
  · exact .group rfl rfl h

/-- **A class is read where its body opens on the line of its head.** Else head and body are two statements, unless the
last word of the head leaves a statement unfinished. -/
theorem parseModule_classText {name gap members : String} {path : List String} {tokens : List Token} {nodes : List Node}
    (hname : isName name = true) (hkeyword : name ≠ "extends" ∧ name ≠ "implements") (hne : path ≠ [])
    (hpath : ∀ word ∈ path, isName word = true) (hgap : gap ≠ "") (hblank : gap.toList.all isBlank = true)
    (htokens : tokenize members = .ok tokens) (hnodes : forest members tokens = .ok nodes)
    (hcomment : ∀ t ∈ tokens, t.isComment = false) :
    ∃ c : ClassDecl, parseModule (classText name path " " members) = .ok ⟨[.classDecl c]⟩ ∧
      c.header = classHead name path ∧ c.name = some name ∧ c.extended.isSome = true ∧
      ("implements" ∉ path → c.extended = some (".".intercalate path)) ∧
      parseModule (classText name path gap members) = .ok ⟨
        if '\n' ∈ gap.toList ∧ path.getLast hne ∉ unfinishedWords then
          [.statement ⟨classHead name path, false⟩,
            .statement ⟨openBrace ++ members ++ closeBrace, 2 ≤ gap.toList.count '\n'⟩]
        else [.classDecl c]⟩ := by
  have hmembers : Node.textOf nodes = members := by
    rw [← toList_inj, toList_textOf_eq_charsOf, charsOf_forest htokens hnodes]
  have hparse : ∀ gap, gap ≠ "" → gap.toList.all isBlank = true → parseModule (classText name path gap members) = .ok ⟨
      if breaksOff gap (path.getLast hne) then
        [.statement ⟨classHead name path, false⟩,
          .statement ⟨openBrace ++ members ++ closeBrace, 2 ≤ gap.toList.count '\n'⟩]
      else [.classDecl (declaredClass name path nodes)]⟩ := by
    intro gap hgap hblank
    rw [parseModule_of_reads (balanced_classNodes name path gap (balanced_forest hnodes))
      (reads_classText hname hne hpath hblank hgap htokens hnodes hcomment), splitStatements_classNodes hne]
    split
    · simp only [List.map_cons, List.map_nil, Piece.item_head, Piece.item_bodyNode, hmembers]
    · simp only [List.map_cons, List.map_nil, Piece.item_classNodes hne hpath hblank hkeyword]
  refine ⟨declaredClass name path nodes, hparse " " (by decide) (by decide), rfl, rfl, ?_, fun himplements => ?_, ?_⟩
  · rw [declaredClass, Option.isSome_map, isSome_extendedNodes_headTokens hkeyword]
  · have htext : Node.textOf ((blankToken " " :: pathTokens path).map .leaf) = " " ++ ".".intercalate path := by
      rw [← toList_inj, toList_textOf_eq_charsOf, Node.tokensOf_leaves, charsOf_cons, charsOf_pathTokens, toList_append]
      rfl
    rw [declaredClass, extendedNodes_headTokens hkeyword himplements, map_some, htext, trim_path hne hpath]
  · have hbreaks : breaksOff gap (path.getLast hne) = true ↔ '\n' ∈ gap.toList ∧ path.getLast hne ∉ unfinishedWords := by
      simp [breaksOff]
    rw [hparse gap hgap hblank]
    simp only [hbreaks]

theorem parseModule_classText_line : tokenize "x" = .ok [⟨.word, "x", 0⟩] ∧ ∃ c : ClassDecl,
    parseModule (classText "A" ["a", "B"] " " "x") = .ok ⟨[.classDecl c]⟩ ∧ c.extended = some "a.B" ∧
      parseModule (classText "A" ["a", "B"] "\n\n" "x") =
        .ok ⟨[.statement ⟨"class A extends a.B", false⟩, .statement ⟨"\x7bx\x7d", true⟩]⟩ := by
  have htokens : tokenize "x" = .ok [⟨.word, "x", 0⟩] := by cbv
  obtain ⟨c, hline, -, -, -, hextended, hbreak⟩ := @parseModule_classText "A" "\n\n" "x" ["a", "B"] _ [.leaf ⟨.word, "x", 0⟩]
    (by decide) (by decide) (by decide) (by decide) (by decide) (by decide) htokens (by cbv) (by decide)
  exact ⟨htokens, c, hline, hextended (by decide), hbreak⟩

end CustomElement.Script
