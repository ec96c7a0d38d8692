import CustomElement.Script.Module.Printer
import CustomElement.Proofs.Script.Cuts
import CustomElement.Proofs.Script.Seams

/-!
# The stretches of a printed script

A printed script is a run of stretches (`stretches`): the layout of a statement, of the header of a class or of the
signature of a method with the brace that opens the body, or the brace that closes it.
-/

namespace CustomElement.Script

open List Text

variable {n : Node} {nodes : List Node} {cut : MemberCut} {α : Type*}

structure Stretch where
  gap : String
  text : String
  tokens : List Token
  seams : List (List Token)

def Stretch.chars (u : Stretch) : List Char := u.gap.toList ++ u.text.toList

def laid (gap text : String) (level : Nat) (nodes : List Node) : Stretch :=
  ⟨gap, reindent text level, tokensOf nodes, []⟩

def opening (gap text : String) (level : Nat) (tokens : List Token) (brace : Token)
    (seams : List (List Token)) : Stretch :=
  ⟨gap, reindent text level ++ " \x7b", tokens ++ [brace], seams⟩

def closing (gap tail : String) (tokens : List Token) : Stretch := ⟨gap, closeBrace ++ tail, tokens, []⟩

def block (front : Stretch) (inner : List Stretch) (level : Nat) (tail : String) (tokens : List Token) :
    List Stretch :=
  front :: (inner ++ [closing (if inner.isEmpty then "" else "\n" ++ indentation level) tail tokens])

/-- Entries one below the other: `first` stands before the first one, and a line break or two before every other. -/
def stack (first : String) (blank : α → Bool) (entry : String → α → List Stretch) :
    List α → List Stretch
  | [] => []
  | a :: as => entry first a ++ as.flatMap fun a => entry (if blank a then "\n\n" else "\n") a

def Piece.laid (level : Nat) (gap : String) (p : Piece) : List Stretch :=
  [Script.laid gap (textOf p.nodes) level p.nodes]

def MethodCut.method (c : MethodCut) : Method :=
  methodOf c.head c.params.inside c.between c.body.inside

def MethodCut.signature (c : MethodCut) : List Token :=
  tokensOf c.head ++ (c.params.tokens ++ tokensOf c.between)

/-- What a bracket is put behind in the signature of a method. The first two parts are trimmed before that, the third is
not. -/
def MethodCut.seams (c : MethodCut) : List (List Token) :=
  [dropTrailingSpace (tokensOf c.head), dropTrailingSpace (tokensOf c.params.inside),
    dropTrailingBlanks (tokensOf c.between)]

def MethodCut.stretches (gap : String) (c : MethodCut) : List Stretch :=
  block (opening gap c.method.signature 1 c.signature c.body.first c.seams)
    (stack "\n" Piece.blankBefore (Piece.laid 2) (splitStatements false c.body.inside)) 1 "" [c.body.last]

namespace MemberCut

def isMember : MemberCut → Bool
  | .gap _ => false
  | .lone _ => false
  | .other .. => true
  | .method .. => true

def blankBefore : MemberCut → Bool
  | .gap _ => false
  | .lone _ => false
  | .other blankBefore _ => blankBefore
  | .method blankBefore _ _ => blankBefore

def stretches (gap : String) : MemberCut → List Stretch
  | .gap _ => []
  | .lone _ => []
  | .other _ nodes => [laid gap (textOf nodes) 1 nodes]
  | .method _ cut _ => cut.stretches gap

end MemberCut

namespace ClassCut

def members (c : ClassCut) : List MemberCut :=
  (cutMembers false c.body.inside).filter MemberCut.isMember

def tail (c : ClassCut) : String :=
  let trailing := trim (textOf c.trailing)
  if trailing.isEmpty then ""
    else if trailing.toList.head? == some ';' then trailing else " " ++ trailing

def declaration (gap : String) (c : ClassCut) : List Stretch :=
  block
    (opening gap (trimEnd (textOf c.header)) 0 (tokensOf c.header) c.body.first [dropTrailingBlanks (tokensOf c.header)])
    (stack "\n" MemberCut.blankBefore MemberCut.stretches c.members) 0 c.tail
    (c.body.last :: tokensOf c.trailing)

def stretches (gap : String) (c : ClassCut) : List Stretch :=
  let leading := trim (textOf c.leading)
  if leading.isEmpty then c.declaration gap
  else laid gap leading 0 c.leading :: c.declaration "\n"

end ClassCut

def Piece.stretches (gap : String) (p : Piece) : List Stretch :=
  match p.classCut? with
  | some c => c.stretches gap
  | none => p.laid 0 gap

def stretches (nodes : List Node) : List Stretch :=
  stack "" Piece.blankBefore Piece.stretches (splitStatements false nodes)

lemma toList_textOf (nodes : List Node) : (textOf nodes).toList = ((tokensOf nodes).map form).flatMap Form.text := by
  rw [textOf, toList_join, flatMap_map, flatMap_map]
  rfl

lemma tokens_of_isBlank (h : n.isBlank) : ∃ t, n.tokens = [t] ∧ t.kind = .blank := by
  cases n with
  | leaf t => exact ⟨t, by simp, by simpa [Node.isBlank, isLeaf] using h⟩
  | group o ms c => cases h

lemma tokens_of_isGroup {op : String} (h : n.isGroup op) : n.tokens = n.first :: (tokensOf n.inside ++ [n.last]) := by
  cases n with
  | leaf t => cases h
  | group o ms c => simp [Node.first, Node.inside, Node.last]

/-- The nodes stand somewhere in a script: their brackets fit, and their text is read as their tokens. -/
structure InPlace (nodes : List Node) : Prop where
  balanced : ∀ n ∈ nodes, n.Balanced
  reads : ∃ fresh slash, Reads fresh slash (textOf nodes).toList ((tokensOf nodes).map form)

namespace InPlace

variable {nodes : List Node}

lemma of_append_left {pre : List Node} (h : InPlace (nodes ++ pre)) : InPlace nodes := by
  obtain ⟨hb, fr, sl, hr⟩ := h
  refine ⟨fun n hn => hb n (mem_append_left _ hn), fr, sl, ?_⟩
  rw [tokensOf_append, map_append] at hr
  rw [toList_textOf]
  exact hr.split.1

lemma of_append_right {aft : List Node} (h : InPlace (aft ++ nodes)) : InPlace nodes := by
  obtain ⟨hb, fr, sl, hr⟩ := h
  rw [tokensOf_append, map_append] at hr
  have hs := hr.split.2
  rw [← toList_textOf] at hs
  exact ⟨fun n hn => hb n (mem_append_right _ hn), _, _, hs⟩

lemma inside (h : InPlace [n]) : InPlace n.inside := by
  cases n with
  | leaf t =>
    refine ⟨by simp [Node.inside], true, true, ?_⟩
    rw [toList_textOf]
    simp only [Node.inside, tokensOf_nil, map_nil, flatMap_nil]
    exact .nil true true
  | group o inside c =>
    obtain ⟨hb, fr, sl, hr⟩ := h
    have hg := hb _ (mem_singleton.2 rfl)
    cases hg with
    | group _ _ hin =>
      have hs : (tokensOf [Node.group o inside c]).map form =
          [o.form] ++ ((tokensOf inside).map form ++ [c.form]) := by simp
      rw [hs] at hr
      have hm := hr.split.2.split.1
      rw [← toList_textOf] at hm
      exact ⟨hin, _, _, hm⟩

lemma exists_ink (h : InPlace nodes) {t : Token} (ht : t ∈ tokensOf nodes) (hk : t.kind ≠ .blank) :
    ∃ c ∈ (textOf nodes).toList, isGap c = false := by
  obtain ⟨-, fr, sl, hr⟩ := h
  obtain ⟨_, _, _, _, hl⟩ := hr.exists_lexes (mem_map_of_mem ht)
  obtain ⟨c, a, ha, hc⟩ := hl.exists_cons hk
  refine ⟨c, ?_, hc⟩
  rw [toList_textOf]
  exact mem_flatMap.2 ⟨t.form, mem_map_of_mem ht, by rw [ha]; simp⟩

lemma kind_first (h : n.Balanced) (hn : n.isBlank = false) : n.first.kind ≠ .blank := by
  cases h with
  | leaf _ _ => simpa [Node.isBlank, isLeaf, Node.first] using hn
  | group ho _ _ =>
    intro hk
    simp only [Token.isOpener, and_eq_true, beq_iff_eq] at ho
    cases hk.symm.trans ho.1

lemma first_mem (n : Node) : n.first ∈ n.tokens := by
  cases n <;> simp [Node.first]

lemma ink_ne_nil (h : InPlace nodes) (hh : nodes.head?.any (fun n => !n.isBlank)) :
    ∃ c ∈ (textOf nodes).toList, isGap c = false := by
  obtain ⟨n, hn, hb⟩ := (Option.any_eq_true _ _).1 hh
  obtain ⟨r, rfl⟩ := head?_eq_some_iff.1 hn
  refine h.exists_ink (t := n.first) ?_ (kind_first (h.balanced n (by simp)) (by simpa using hb))
  rw [tokensOf_cons]
  exact mem_append_left _ (first_mem n)

end InPlace

section Stack

variable {α : Type*} {blank : α → Bool} {entry : String → α → List Stretch} {text : α → String}

lemma chars_stack {a : α} {as : List α}
    (he : ∀ g, ∀ b ∈ a :: as, (entry g b).flatMap Stretch.chars = g.toList ++ (text b).toList) (fst : String) :
    (stack fst blank entry (a :: as)).flatMap Stretch.chars = fst.toList ++ (text a).toList ++
        as.flatMap fun b => (if blank b then ['\n', '\n'] else ['\n']) ++ (text b).toList := by
  rw [stack, flatMap_append, he fst a (by simp), flatMap_assoc]
  congr 1
  refine flatMap_congr fun b hb => ?_
  rw [he _ b (by simp [hb])]
  split <;> rfl

lemma mapIdx_const {β : Type*} (f : α → β) (as : List α) : as.mapIdx (fun _ a => f a) = as.map f := by
  induction as with
  | nil => rfl
  | cons a as ih => rw [mapIdx_cons, ih, map_cons]

lemma printEntries_cons (e : Bool × String) (es : List (Bool × String)) :
    (printEntries (e :: es)).toList = e.2.toList ++ '\n' ::
      es.flatMap fun e => (if e.1 then ['\n'] else []) ++ (e.2.toList ++ ['\n']) := by
  rw [printEntries, mapIdx_cons, toList_join, flatMap_cons]
  have hm : ∀ i, 0 < i + 1 := succ_pos
  simp only [hm, decide_true, Bool.true_and, mapIdx_const, flatMap_map]
  have hn : "\n".toList = ['\n'] := rfl
  simp [hn, apply_ite String.toList]

lemma chars_entries {as : List α} (he : ∀ g, ∀ b ∈ as, (entry g b).flatMap Stretch.chars = g.toList ++ (text b).toList) :
    (stack "\n" blank entry as).flatMap Stretch.chars ++ ['\n'] =
      '\n' :: (printEntries (as.map fun b => (blank b, text b))).toList := by
  cases as with
  | nil => rfl
  | cons a as =>
    have hm : ∀ bs : List α, (bs.flatMap fun b =>
        (if blank b then ['\n', '\n'] else ['\n']) ++ (text b).toList) ++ ['\n'] =
        '\n' :: bs.flatMap fun b => (if blank b then ['\n'] else []) ++ ((text b).toList ++ ['\n']) := by
      intro bs
      induction bs with
      | nil => rfl
      | cons b bs ih =>
        rw [flatMap_cons, append_assoc, ih, flatMap_cons]
        split <;> simp
    rw [chars_stack he, append_assoc, hm, map_cons, printEntries_cons, flatMap_map]
    simp

lemma isEmpty_stack {as : List α} (hne : ∀ g, ∀ b ∈ as, entry g b ≠ []) (fst : String) :
    (stack fst blank entry as).isEmpty = as.isEmpty := by
  cases as with
  | nil => rfl
  | cons a as =>
    rw [stack, isEmpty_eq_false_iff.2 fun hn => hne fst a (by simp) (append_eq_nil_iff.1 hn).1]
    rfl

lemma chars_block {as : List α} (hen : ∀ g, ∀ b ∈ as, (entry g b).flatMap Stretch.chars = g.toList ++ (text b).toList)
    (hn : ∀ g, ∀ b ∈ as, entry g b ≠ []) (g fr : String) (l : Nat) (ts : List Token)
    (brace : Token) (seams : List (List Token)) (tl : String) (post : List Token) :
    (block (opening g fr l ts brace seams) (stack "\n" blank entry as) l tl post).flatMap Stretch.chars =
      (g ++ reindent fr l ++ (if as.isEmpty then " \x7b\x7d"
        else " \x7b\n" ++ printEntries (as.map fun b => (blank b, text b)) ++ indentation l ++ closeBrace) ++
          tl).toList := by
  rw [block, isEmpty_stack hn, flatMap_cons, flatMap_append]
  cases as with
  | nil =>
    have hb : " \x7b\x7d".toList = " \x7b".toList ++ closeBrace.toList := rfl
    simp [stack, closing, opening, Stretch.chars, hb]
  | cons a as =>
    have he : (stack "\n" blank entry (a :: as)).flatMap Stretch.chars ++ "\n".toList =
        "\n".toList ++ (printEntries ((a :: as).map fun b => (blank b, text b))).toList :=
      chars_entries hen
    have hbr : " \x7b\n".toList = " \x7b".toList ++ "\n".toList := rfl
    simp only [isEmpty_cons, false_eq_true, if_false, closing, flatMap_cons,
      flatMap_nil, append_nil, toList_append, opening, Stretch.chars, hbr,
      append_assoc]
    rw [← append_assoc "\n".toList (printEntries _).toList, ← he]
    simp only [append_assoc]

end Stack

lemma chars_laid (g text : String) (l : Nat) (nodes : List Node) :
    (laid g text l nodes).chars = g.toList ++ (reindent text l).toList := rfl

lemma Piece.chars_laid (l : Nat) (g : String) (p : Piece) : (p.laid l g).flatMap Stretch.chars =
      g.toList ++ (reindent (textOf p.nodes) l).toList := by
  simp [Piece.laid, Script.chars_laid]

lemma MethodCut.chars_stretches (g : String) (c : MethodCut) :
    (c.stretches g).flatMap Stretch.chars = g.toList ++ (c.method.print 1).toList := by
  have hn : ∀ g, ∀ p ∈ splitStatements false c.body.inside, Piece.laid 2 g p ≠ [] := by
    simp [Piece.laid]
  have hb : c.method.body = (splitStatements false c.body.inside).map Piece.statement := rfl
  rw [MethodCut.stretches, chars_block (fun g p _ => p.chars_laid 2 g) hn, Method.print, printBlock, hb,
    isEmpty_map, map_map]
  simp only [toList_append, append_assoc, String.append_empty]
  rfl

lemma MemberCut.chars_stretches (gap : String) {m : Member} (h : cut.member? = some m) :
    (cut.stretches gap).flatMap Stretch.chars = gap.toList ++ m.print.toList := by
  cases cut with
  | gap node => cases h
  | lone semicolon => cases h
  | other blankBefore nodes =>
    cases h
    simp [MemberCut.stretches, chars_laid, Member.print]
  | method blankBefore cut post =>
    cases h
    exact cut.chars_stretches gap

lemma MemberCut.exists_member (h : cut.isMember) : ∃ m, cut.member? = some m ∧ m.blankBefore = cut.blankBefore := by
  cases cut with
  | gap node => cases h
  | lone semicolon => cases h
  | other blankBefore nodes => exact ⟨_, rfl, rfl⟩
  | method blankBefore cut post => exact ⟨_, rfl, rfl⟩

lemma MemberCut.stretches_ne_nil (h : cut.isMember) (gap : String) : cut.stretches gap ≠ [] := by
  cases cut with
  | gap node => cases h
  | lone semicolon => cases h
  | other blankBefore nodes => exact cons_ne_nil _ _
  | method blankBefore cut post => exact cons_ne_nil _ _

def MemberCut.print (cut : MemberCut) : String := (cut.member?.map Member.print).getD ""

lemma ClassCut.map_members (c : ClassCut) : (splitMembers false c.body.inside).map (fun m => (m.blankBefore, m.print)) =
      c.members.map fun cut => (cut.blankBefore, cut.print) := by
  rw [splitMembers_eq, ClassCut.members]
  induction cutMembers false c.body.inside with
  | nil => rfl
  | cons cut cuts ih =>
    cases hc : cut.isMember with
    | false =>
      have hn : cut.member? = none := by
        cases cut with
        | gap node => rfl
        | lone semicolon => rfl
        | other blankBefore nodes => cases hc
        | method blankBefore cut post => cases hc
      rw [filterMap_cons_none hn, ih, filter_cons_of_neg (by simp [hc])]
    | true =>
      obtain ⟨m, hm, hb⟩ := cut.exists_member hc
      rw [filterMap_cons_some hm, map_cons, ih, filter_cons_of_pos hc, map_cons, hb, MemberCut.print, hm]
      rfl

lemma ClassCut.chars_declaration (g : String) (c : ClassCut) : (c.declaration g).flatMap Stretch.chars = g.toList ++
      (reindent (trimEnd (textOf c.header)) 0 ++ (if c.members.isEmpty then " \x7b\x7d"
        else " \x7b\n" ++ printEntries (c.members.map fun cut => (cut.blankBefore, cut.print)) ++ closeBrace) ++
          c.tail).toList := by
  have he : ∀ g, ∀ cut ∈ c.members, (cut.stretches g).flatMap Stretch.chars = g.toList ++ cut.print.toList := by
    intro g cut hc
    obtain ⟨m, hm, -⟩ := cut.exists_member (mem_filter.1 hc).2
    rw [MemberCut.chars_stretches g hm, MemberCut.print, hm]
    rfl
  have hn : ∀ g, ∀ cut ∈ c.members, cut.stretches g ≠ [] := fun g cut hc =>
    MemberCut.stretches_ne_nil (mem_filter.1 hc).2 g
  have hl : indentation 0 = "" := rfl
  rw [ClassCut.declaration, chars_block he hn, hl]
  simp only [toList_append, append_assoc, String.append_empty]

lemma ClassCut.chars_stretches (g : String) {c : ClassCut} {d : ClassDecl}
    (hl : d.leading = trim (textOf c.leading)) (hh : d.header = trimEnd (textOf c.header))
    (hm : d.members = splitMembers false c.body.inside) (ht : d.trailing = trim (textOf c.trailing)) :
    (c.stretches g).flatMap Stretch.chars = g.toList ++ d.print.toList := by
  have hma := c.map_members
  have he : d.members.isEmpty = c.members.isEmpty := by
    rw [hm, ← isEmpty_map, hma, isEmpty_map]
  have hta : c.tail = if d.trailing.isEmpty then ""
      else if d.trailing.toList.head? == some ';' then d.trailing else " " ++ d.trailing := by
    rw [ht]
    rfl
  rw [ClassDecl.print, he, hm, hma, hh, ← hta, hl, ClassCut.stretches]
  split
  · rw [chars_declaration, String.empty_append]
  · rw [flatMap_cons, chars_declaration, chars_laid]
    simp only [toList_append, append_assoc]

lemma Piece.chars_stretches (g : String) (p : Piece) :
    (p.stretches g).flatMap Stretch.chars = g.toList ++ p.item.print.toList := by
  unfold Piece.stretches
  cases hc : p.classCut? with
  | none =>
    rw [Piece.item_of_classCut_eq_none hc]
    exact p.chars_laid 0 g
  | some c =>
    obtain ⟨d, hit, -, hl, hh, hm, ht⟩ := Piece.item_of_classCut hc
    rw [hit]
    exact ClassCut.chars_stretches g hl hh hm ht

lemma Piece.blankBefore_item (p : Piece) : p.item.blankBefore = p.blankBefore := by
  cases hc : p.classCut? with
  | none =>
    rw [Piece.item_of_classCut_eq_none hc]
    rfl
  | some c =>
    obtain ⟨d, hit, hb, -⟩ := Piece.item_of_classCut hc
    rw [hit]
    exact hb

lemma print_cons (p : Piece) (ps : List Piece) : Module.print ⟨(p :: ps).map Piece.item⟩ =
    p.item.print ++ String.join ((ps.map fun p => (p.blankBefore, p.item.print)).map fun e =>
      (if e.1 then "\n\n" else "\n") ++ e.2) := by
  have hm : ∀ i, (i + 1 == 0) = false := fun _ => rfl
  rw [Module.print, map_cons, mapIdx_cons, ← toList_inj, toList_append, toList_join,
    toList_join, flatMap_cons, toList_append]
  simp only [hm, false_eq_true, if_false, mapIdx_const, map_map, flatMap_map, comp_def, Piece.blankBefore_item]
  rfl

lemma toList_print (nodes : List Node) : (Module.print ⟨(splitStatements false nodes).map Piece.item⟩).toList =
      (stretches nodes).flatMap Stretch.chars := by
  rw [stretches]
  cases splitStatements false nodes with
  | nil => rfl
  | cons p ps =>
    rw [print_cons, chars_stack fun g p _ => p.chars_stretches g]
    simp only [toList_append, toList_join, flatMap_map]
    congr 1
    refine flatMap_congr fun p _ => ?_
    split <;> rfl

/-- The tokens `all` are those that are kept, those that are dropped, and blanks. -/
inductive Parted : (all kept dropped : List Token) → Prop
  | nil : Parted [] [] []
  | blank {t : Token} {all kept dropped : List Token} (h : t.kind = .blank)
      (more : Parted all kept dropped) : Parted (t :: all) kept dropped
  | keep (t : Token) {all kept dropped : List Token} (more : Parted all kept dropped) :
      Parted (t :: all) (t :: kept) dropped
  | drop (t : Token) {all kept dropped : List Token} (more : Parted all kept dropped) :
      Parted (t :: all) kept (t :: dropped)

namespace Parted

variable {all kept dropped all' kept' dropped' : List Token}

lemma append (h : Parted all kept dropped) (h' : Parted all' kept' dropped') :
    Parted (all ++ all') (kept ++ kept') (dropped ++ dropped') := by
  induction h with
  | nil => exact h'
  | blank hb _ ih => exact .blank hb ih
  | keep t _ ih => exact .keep t ih
  | drop t _ ih => exact .drop t ih

lemma all_kept (ts : List Token) : Parted ts ts [] := by
  induction ts with
  | nil => exact .nil
  | cons t ts ih => exact .keep t ih

lemma all_dropped (ts : List Token) : Parted ts [] ts := by
  induction ts with
  | nil => exact .nil
  | cons t ts ih => exact .drop t ih

lemma flatMap {all kept dropped : α → List Token} {as : List α} (h : ∀ a ∈ as, Parted (all a) (kept a) (dropped a)) :
    Parted (as.flatMap all) (as.flatMap kept) (as.flatMap dropped) := by
  induction as with
  | nil => exact .nil
  | cons a as ih =>
    exact (h a (by simp)).append (ih fun b hb => h b (mem_cons_of_mem a hb))

section

variable (h : Parted all kept dropped)

include h

lemma kept_sublist : kept.Sublist all := by
  induction h with
  | nil => exact .slnil
  | blank _ _ ih => exact ih.cons _
  | keep t _ ih => exact ih.cons_cons t
  | drop t _ ih => exact ih.cons t

lemma dropped_sublist : dropped.Sublist all := by
  induction h with
  | nil => exact .slnil
  | blank _ _ ih => exact ih.cons _
  | keep t _ ih => exact ih.cons t
  | drop t _ ih => exact ih.cons_cons t

lemma disjoint (ha : all.Nodup) : ∀ t ∈ dropped, t ∉ kept := by
  induction h with
  | nil => simp
  | blank _ _ ih => exact ih (nodup_cons.1 ha).2
  | keep t more ih =>
    obtain ⟨hn, hr⟩ := nodup_cons.1 ha
    intro u hu
    have hne : u ≠ t := fun heq => hn (more.dropped_sublist.subset (heq ▸ hu))
    simp [hne, ih hr u hu]
  | drop t more ih =>
    obtain ⟨hn, hr⟩ := nodup_cons.1 ha
    refine forall_mem_cons.2 ⟨fun hk => hn (more.kept_sublist.subset hk), ih hr⟩

lemma filter_eq {p : Token → Bool} (hk : ∀ t ∈ kept, p t) (hd : ∀ t ∈ dropped, p t = false) :
    (all.filter p).filter (fun t => t.kind != .blank) = kept.filter fun t => t.kind != .blank := by
  induction h with
  | nil => rfl
  | @blank t _ _ _ hb _ ih =>
    have hn : (t.kind != .blank) = false := by simp [hb]
    rw [filter_filter, filter_cons_of_neg (by simp [hn]), ← filter_filter, ih hk hd]
  | keep t _ ih =>
    obtain ⟨ht, hr⟩ := forall_mem_cons.1 hk
    rw [filter_cons_of_pos ht, filter_cons, filter_cons, ih hr hd]
  | drop t _ ih =>
    obtain ⟨ht, hr⟩ := forall_mem_cons.1 hd
    rw [filter_cons_of_neg (by simp [ht]), ih hk hr]

end

end Parted

def memberCuts (nodes : List Node) : List MemberCut :=
  (splitStatements false nodes).flatMap fun p =>
    match p.classCut? with
    | some c => cutMembers false c.body.inside
    | none => []

def MemberCut.semicolons : MemberCut → List Token
  | .gap _ => []
  | .lone semicolon => semicolon.tokens
  | .other .. => []
  | .method .. => []

def MemberCut.dropped : MemberCut → List Token
  | .gap _ => []
  | .lone semicolon => semicolon.tokens
  | .other .. => []
  | .method _ _ behind => tokensOf behind

/-- The semicolons that stand alone among the members of a class. -/
def loneSemicolons (nodes : List Node) : List Token := (memberCuts nodes).flatMap MemberCut.semicolons

def droppedTokens (nodes : List Node) : List Token := (memberCuts nodes).flatMap MemberCut.dropped

lemma scattered_pieces {α β : Type} {R : List Token → List α → List β → Prop} (hn : R [] [] [])
    (hb : ∀ {t : Token} {ts : List Token} {as : List α} {bs : List β}, t.kind = .blank → R ts as bs → R (t :: ts) as bs)
    (ha : ∀ {ts ts' : List Token} {as as' : List α} {bs bs' : List β}, R ts as bs → R ts' as' bs' →
      R (ts ++ ts') (as ++ as') (bs ++ bs'))
    {f : Piece → List α} {g : Piece → List β} {ps : List Piece}
    (h : Scattered Node.isBlank (ps.map Piece.nodes) nodes) (hpi : ∀ p ∈ ps, R (tokensOf p.nodes) (f p) (g p)) :
    R (tokensOf nodes) (ps.flatMap f) (ps.flatMap g) := by
  generalize hq : ps.map Piece.nodes = qs at h
  induction h generalizing ps with
  | nil =>
    obtain rfl := map_eq_nil_iff.1 hq
    rw [tokensOf_nil]
    exact hn
  | skip hs _ ih =>
    obtain ⟨t, ht, hk⟩ := tokens_of_isBlank hs
    rw [tokensOf_cons, ht]
    exact hb hk (ih hpi hq)
  | piece q _ ih =>
    obtain ⟨p, ps, rfl, rfl, rfl⟩ := map_eq_cons_iff.1 hq
    rw [tokensOf_append]
    exact ha (hpi p (by simp)) (ih (fun p hp => hpi p (mem_cons_of_mem _ hp)) rfl)

lemma parted_scattered {kept dropped : Piece → List Token} {ps : List Piece}
    (h : Scattered Node.isBlank (ps.map Piece.nodes) nodes)
    (hp : ∀ p ∈ ps, Parted (tokensOf p.nodes) (kept p) (dropped p)) :
    Parted (tokensOf nodes) (ps.flatMap kept) (ps.flatMap dropped) :=
  scattered_pieces .nil .blank .append h hp

lemma tokens_stack {blank : α → Bool} {entry : String → α → List Stretch} {kept : α → List Token} {as : List α}
    (he : ∀ g, ∀ a ∈ as, (entry g a).flatMap Stretch.tokens = kept a) (fst : String) :
    (stack fst blank entry as).flatMap Stretch.tokens = as.flatMap kept := by
  cases as with
  | nil => rfl
  | cons a as =>
    rw [stack, flatMap_append, he fst a (by simp), flatMap_assoc, flatMap_cons]
    congr 1
    exact flatMap_congr fun b hb => he _ b (mem_cons_of_mem a hb)

lemma tokens_block (g fr : String) (l : Nat) (ts : List Token) (brace : Token)
    (seams : List (List Token)) (inner : List Stretch) (l' : Nat) (tl : String) (post : List Token) :
    (block (opening g fr l ts brace seams) inner l' tl post).flatMap Stretch.tokens =
      ts ++ brace :: (inner.flatMap Stretch.tokens ++ post) := by
  simp [block, opening, closing]

lemma MethodCut.parted (c : MethodCut) (hb : c.body.isGroup openBrace) (g : String) :
    Parted (tokensOf c.nodes) ((c.stretches g).flatMap Stretch.tokens) [] := by
  have hs : (stack "\n" Piece.blankBefore (Piece.laid 2) (splitStatements false c.body.inside)).flatMap
      Stretch.tokens = (splitStatements false c.body.inside).flatMap fun p => tokensOf p.nodes :=
    tokens_stack (fun g p _ => by simp [Piece.laid, laid]) "\n"
  have hin := parted_scattered (scattered_splitStatements false c.body.inside)
    (fun p _ => Parted.all_kept (tokensOf p.nodes))
  rw [show (splitStatements false c.body.inside).flatMap (fun _ => ([] : List Token)) = [] by simp] at hin
  rw [MethodCut.stretches, tokens_block, hs, MethodCut.nodes, tokensOf_append, tokensOf_cons,
    tokensOf_append, tokensOf_cons, tokensOf_nil, append_nil, tokens_of_isGroup hb,
    ← append_assoc c.params.tokens, ← append_assoc (tokensOf c.head)]
  have he := (Parted.all_kept c.signature).append
    (.keep c.body.first (hin.append (Parted.all_kept [c.body.last])))
  simpa [MethodCut.signature] using he

lemma MemberCut.tokens_stretches (cut : MemberCut) (g : String) :
    (cut.stretches g).flatMap Stretch.tokens = (cut.stretches "").flatMap Stretch.tokens := by
  cases cut <;> rfl

lemma MemberCut.parted (h : cut.Shaped) :
    Parted (tokensOf cut.nodes) ((cut.stretches "").flatMap Stretch.tokens) cut.dropped := by
  cases cut with
  | gap node =>
    obtain ⟨t, ht, hk⟩ := tokens_of_isBlank h
    rw [MemberCut.nodes, tokensOf_cons, ht]
    exact .blank hk (by rw [tokensOf_nil]; exact .nil)
  | lone semicolon =>
    rw [MemberCut.nodes, tokensOf_cons, tokensOf_nil, append_nil]
    exact .all_dropped _
  | other blankBefore nodes =>
    simpa [MemberCut.stretches, MemberCut.nodes, MemberCut.dropped, laid] using
      Parted.all_kept (tokensOf nodes)
  | method blankBefore c post =>
    rw [MemberCut.nodes, tokensOf_append]
    have hm := (c.parted h.2.2.1 "").append (Parted.all_dropped (tokensOf post))
    rwa [append_nil] at hm

lemma tokensOf_flatMap (f : α → List Node) (as : List α) :
    tokensOf (as.flatMap f) = as.flatMap fun a => tokensOf (f a) := by
  induction as with
  | nil => simp
  | cons a as ih => simp [ih]

lemma ClassCut.parted_members (c : ClassCut) : Parted (tokensOf c.body.inside)
      ((stack "\n" MemberCut.blankBefore MemberCut.stretches c.members).flatMap Stretch.tokens)
      ((cutMembers false c.body.inside).flatMap MemberCut.dropped) := by
  have hs : (stack "\n" MemberCut.blankBefore MemberCut.stretches c.members).flatMap Stretch.tokens =
      (cutMembers false c.body.inside).flatMap fun cut => (cut.stretches "").flatMap Stretch.tokens := by
    rw [tokens_stack (fun gap cut _ => cut.tokens_stretches gap), ClassCut.members]
    induction cutMembers false c.body.inside with
    | nil => rfl
    | cons cut cuts ih =>
      rw [filter_cons]
      split
      · rw [flatMap_cons, ih, flatMap_cons]
      · cases cut with
        | gap node => exact ih
        | lone semicolon => exact ih
        | other _ _ => contradiction
        | method _ _ _ => contradiction
  rw [hs, ← flatMap_cutMembers false c.body.inside, tokensOf_flatMap, flatMap_cutMembers]
  exact Parted.flatMap fun cut hc => MemberCut.parted (shaped_cutMembers false _ cut hc)

lemma ClassCut.parted_declaration (c : ClassCut) (hb : c.body.isGroup openBrace) (g : String) :
    Parted (tokensOf (c.header ++ c.body :: c.trailing)) ((c.declaration g).flatMap Stretch.tokens)
      ((cutMembers false c.body.inside).flatMap MemberCut.dropped) := by
  rw [ClassCut.declaration, tokens_block, tokensOf_append, tokensOf_cons, tokens_of_isGroup hb]
  have he := (Parted.all_kept (tokensOf c.header)).append (.keep c.body.first
    (c.parted_members.append (Parted.all_kept (c.body.last :: tokensOf c.trailing))))
  simpa using he

lemma isEmpty_trim_textOf (h : InPlace nodes) (hh : nodes.head?.all (fun n => !n.isBlank)) :
    (trim (textOf nodes)).isEmpty = nodes.isEmpty := by
  cases nodes with
  | nil => rfl
  | cons n nodes =>
    obtain ⟨d, hd, hga⟩ := h.ink_ne_nil (by simpa using hh)
    obtain ⟨g, g', hg, hg', ht⟩ := exists_trim (textOf (n :: nodes))
    rw [isEmpty_cons, eq_false_iff]
    intro he
    rw [String.isEmpty_iff.1 he] at ht
    rw [ht] at hd
    have ha : isGap d := hg.append hg' d (by simpa using hd)
    rw [hga] at ha
    cases ha

lemma Piece.parted {p : Piece} (h : InPlace p.nodes) (hh : p.nodes.head?.any (fun n => !n.isBlank)) (g : String) :
    Parted (tokensOf p.nodes) ((p.stretches g).flatMap Stretch.tokens) ((match p.classCut? with
        | some c => cutMembers false c.body.inside
        | none => []).flatMap MemberCut.dropped) := by
  unfold Piece.stretches
  cases hcu : p.classCut? with
  | none => simpa [Piece.laid, Script.laid] using Parted.all_kept (tokensOf p.nodes)
  | some c =>
    obtain ⟨hn, -, -, hb⟩ := Piece.classCut?_eq_some hcu
    dsimp only
    have hl : c.leading.head?.all (fun n => !n.isBlank) := by
      rw [hn] at hh
      cases hc : c.leading with
      | nil => rfl
      | cons n r => simpa [hc] using hh
    rw [hn] at h
    rw [hn, ClassCut.stretches, isEmpty_trim_textOf h.of_append_left hl]
    split
    · rename_i he
      rw [isEmpty_iff.1 he, nil_append]
      exact c.parted_declaration hb g
    · rw [flatMap_cons, tokensOf_append]
      exact (Parted.all_kept (tokensOf c.leading)).append (c.parted_declaration hb "\n")

lemma Piece.tokens_stretches (p : Piece) (g : String) :
    (p.stretches g).flatMap Stretch.tokens = (p.stretches "").flatMap Stretch.tokens := by
  unfold Piece.stretches
  cases p.classCut? with
  | none => rfl
  | some c =>
    dsimp only [ClassCut.stretches]
    split <;> rfl

lemma InPlace.splitStatements (h : InPlace nodes) {blank : Bool} {p : Piece}
    (hp : p ∈ splitStatements blank nodes) : InPlace p.nodes := by
  obtain ⟨pre, aft, hn⟩ := (scattered_splitStatements blank nodes).exists_of_mem (mem_map_of_mem hp)
  rw [hn] at h
  exact h.of_append_right.of_append_left

/-- **The stretches stand for the tokens of the script**, but for blanks and what is not printed. -/
lemma parted_stretches (h : InPlace nodes) :
    Parted (tokensOf nodes) ((stretches nodes).flatMap Stretch.tokens) (droppedTokens nodes) := by
  rw [stretches, tokens_stack fun g p _ => p.tokens_stretches g, droppedTokens, memberCuts, flatMap_assoc]
  refine parted_scattered (scattered_splitStatements false nodes) fun p hp => ?_
  exact Piece.parted (h.splitStatements hp) (head?_splitStatements false nodes p hp) ""

end CustomElement.Script
