import CustomElement.Component.Splice
import CustomElement.Proofs.Script.FieldFunctions

/-!
# What wiring changes

Wiring completes the first method or field of each sort that it needs and adds the methods that the class lacks; all
else stays as it is, in its order (`wire_members`).
-/

namespace CustomElement.Script

open List

variable {kept ms result : List Member} {m : Method} {name : String} {q : MemberContent → Bool} {ct : MemberContent}

def MemberContent.isMethod (p : Method → Bool) : MemberContent → Bool
  | .method m => p m
  | .other _ => false

def MemberContent.method? (p : Method → Bool) : MemberContent → Option Method
  | .method m => if p m then some m else none
  | .other _ => none

def MemberContent.holdsFunction (name : String) : MemberContent → Bool
  | .method _ => false
  | .other text => (fieldFunctionBody text name).isSome

def MemberContent.functionText? (name : String) : MemberContent → Option String
  | .method _ => none
  | .other text => if (fieldFunctionBody text name).isSome then some text else none

export MemberContent (method? functionText?)

def firstOf {α : Type} (v : MemberContent → Option α) (ms : List Member) : Option α := ms.findSome? fun m => v m.content

def firstMethod (p : Method → Bool) (ms : List Member) : Option Method := firstOf (method? p) ms

def firstFunctionText (name : String) (ms : List Member) : Option String := firstOf (functionText? name) ms

def Method.isInstance (name : String) (m : Method) : Bool := m.name == name && !m.isStatic && m.role == .call

def Method.constructs (m : Method) : Bool := m.role == .construct

export Method (constructs isInstance)

/-- The members with the first one changed in which a search finds something. -/
def editFirst {α : Type} (v : MemberContent → Option α) (g : α → MemberContent) : List Member → List Member
  | [] => []
  | m :: ms =>
    match v m.content with
    | some a => { m with content := g a } :: ms
    | none => m :: editFirst v g ms

def editMethod (p : Method → Bool) (f : Method → Method) (ms : List Member) : List Member :=
  editFirst (method? p) (fun m => .method (f m)) ms

/-- The members with a statement in front of the first function that a field `name` holds. -/
def prependFirst (name stmt : String) (ms : List Member) : List Member :=
  editFirst (functionText? name) (fun text => .other (withFirst name stmt text)) ms

/-- `result` has the members `kept` and the methods `added`, each in their order. A blank line may have been put before a
member. -/
inductive Extended : List Method → List Member → List Member → Prop
  | nil : Extended [] [] []
  | keep {added : List Method} {kept result : List Member} (m : Member) (blank : Bool) (more : Extended added kept result) :
      Extended added (m :: kept) ({ m with blankBefore := m.blankBefore || blank } :: result)
  | add {added : List Method} {kept result : List Member} (m : Method) (more : Extended added kept result) :
      Extended (m :: added) kept (⟨true, .method m⟩ :: result)

section Search

variable {α β : Type} {v : MemberContent → Option α} {w : MemberContent → Option β} {g : α → MemberContent}
  {p : Method → Bool} {f : Method → Method}

lemma firstOf_cons (m : Member) : firstOf v (m :: ms) = (v m.content).or (firstOf v ms) := by
  rw [firstOf, findSome?_cons]
  cases v m.content <;> rfl

lemma editFirst_cons_of_none {m : Member} (h : v m.content = none) : editFirst v g (m :: ms) = m :: editFirst v g ms := by
  rw [editFirst, h]

lemma editFirst_cons_of_some {m : Member} {a : α} (h : v m.content = some a) :
    editFirst v g (m :: ms) = { m with content := g a } :: ms := by
  rw [editFirst, h]

lemma editFirst_eq_self (h : firstOf v ms = none) : editFirst v g ms = ms := by
  induction ms with
  | nil => rfl
  | cons m ms ih =>
    rw [firstOf_cons, Option.or_eq_none_iff] at h
    rw [editFirst_cons_of_none h.1, ih h.2]

lemma exists_of_findIdx? {i : Nat} (hv : ∀ content, (v content).isSome = q content)
    (h : ms.findIdx? (fun m => q m.content) = some i) : ∃ m a, ms[i]? = some m ∧ v m.content = some a ∧
      firstOf v ms = some a ∧ ∀ g, editFirst v g ms = ms.set i { m with content := g a } := by
  simp only [← hv] at h
  induction ms generalizing i with
  | nil => simp at h
  | cons m ms ih =>
    rw [findIdx?_cons] at h
    cases hm : v m.content with
    | some a =>
      obtain rfl : 0 = i := by simpa [hm] using h
      exact ⟨m, a, rfl, hm, by rw [firstOf_cons, hm]; rfl, fun g => editFirst_cons_of_some hm⟩
    | none =>
      obtain ⟨i, hi, rfl⟩ : ∃ j, ms.findIdx? (fun m => (v m.content).isSome) = some j ∧ j + 1 = i := by simpa [hm] using h
      obtain ⟨m', a, hg, ha, hf, he⟩ := ih hi
      refine ⟨m', a, hg, ha, by rw [firstOf_cons, hm, hf]; rfl, fun g => ?_⟩
      rw [editFirst_cons_of_none hm, he]
      rfl

lemma firstOf_of_findIdx?_eq_none (hv : ∀ ct, (v ct).isSome = q ct)
    (h : ms.findIdx? (fun m => q m.content) = none) : firstOf v ms = none := by
  rw [firstOf, findSome?_eq_none_iff]
  intro m hm
  simpa using (hv m.content).trans (findIdx?_eq_none_iff.1 h m hm)

lemma isSome_method? (ct : MemberContent) : (ct.method? p).isSome = ct.isMethod p := by
  cases ct with
  | method m => by_cases hm : p m <;> simp [method?, MemberContent.isMethod, hm]
  | other x => rfl

lemma isSome_functionText? (ct : MemberContent) : (ct.functionText? name).isSome = ct.holdsFunction name := by
  cases ct with
  | method m => rfl
  | other x => cases h : fieldFunctionBody x name <;> simp [functionText?, MemberContent.holdsFunction, h]

lemma method?_eq_none (h : p m = false) : (MemberContent.method m).method? p = none := by
  simp [method?, h]

lemma method?_eq_some_iff : ct.method? p = some m ↔ ct = .method m ∧ p m := by
  cases ct with
  | method m' => grind [method?]
  | other x => simp [method?]

lemma functionText?_eq_some_iff {name x : String} :
    ct.functionText? name = some x ↔ ct = .other x ∧ (fieldFunctionBody x name).isSome := by
  cases ct with
  | method m => simp [functionText?]
  | other x' => grind [functionText?]

lemma firstOf_editFirst (h : ∀ ct a, v ct = some a → w ct = none ∧ w (g a) = none) (ms : List Member) :
    firstOf w (editFirst v g ms) = firstOf w ms := by
  induction ms with
  | nil => rfl
  | cons m ms ih =>
    cases hm : v m.content with
    | none => rw [editFirst_cons_of_none hm, firstOf_cons, firstOf_cons, ih]
    | some a =>
      obtain ⟨hb, ha⟩ := h m.content a hm
      rw [editFirst_cons_of_some hm, firstOf_cons, firstOf_cons, hb, ha]

lemma firstOf_editFirst_self {f : α → α} (h : ∀ ct a, v ct = some a → v (g a) = some (f a)) (ms : List Member) :
    firstOf v (editFirst v g ms) = (firstOf v ms).map f := by
  induction ms with
  | nil => rfl
  | cons m ms ih =>
    cases hm : v m.content with
    | none => rw [editFirst_cons_of_none hm, firstOf_cons, firstOf_cons, hm, Option.none_or, Option.none_or, ih]
    | some a => rw [editFirst_cons_of_some hm, firstOf_cons, firstOf_cons, hm, h m.content a hm]; rfl

lemma editFirst_congr {g' : α → MemberContent} {a : α} (h : firstOf v ms = some a) (hg : g a = g' a) :
    editFirst v g ms = editFirst v g' ms := by
  induction ms with
  | nil => rfl
  | cons m ms ih =>
    rw [firstOf_cons] at h
    cases hm : v m.content with
    | none =>
      rw [hm, Option.none_or] at h
      rw [editFirst_cons_of_none hm, editFirst_cons_of_none hm, ih h]
    | some b =>
      rw [hm, Option.some_or, some.injEq] at h
      rw [editFirst_cons_of_some hm, editFirst_cons_of_some hm, h, hg]

lemma editMethod_congr {g : Method → Method} (h : firstMethod p ms = some m) (hf : f m = g m) :
    editMethod p f ms = editMethod p g ms := editFirst_congr h (congrArg MemberContent.method hf)

lemma firstOf_editMethod (hw : ∀ m, p m → w (.method m) = none) (hf : ∀ m, p m → p (f m))
    (ms : List Member) : firstOf w (editMethod p f ms) = firstOf w ms := by
  refine firstOf_editFirst (fun ct m hm => ?_) ms
  obtain ⟨rfl, hp⟩ := method?_eq_some_iff.1 hm
  exact ⟨hw m hp, hw (f m) (hf m hp)⟩

lemma firstMethod_editMethod (hf : ∀ m, p m → p (f m)) (ms : List Member) :
    firstMethod p (editMethod p f ms) = (firstMethod p ms).map f := by
  refine firstOf_editFirst_self (fun ct m hm => ?_) ms
  exact method?_eq_some_iff.2 ⟨rfl, hf m (method?_eq_some_iff.1 hm).2⟩

lemma firstMethod_prependFirst (name stmt : String) (ms : List Member) :
    firstMethod p (prependFirst name stmt ms) = firstMethod p ms := by
  refine firstOf_editFirst (fun ct x ht => ?_) ms
  obtain ⟨rfl, -⟩ := functionText?_eq_some_iff.1 ht
  exact ⟨rfl, rfl⟩

end Search

namespace ClassDecl

variable {c : ClassDecl} {p : Method → Bool} {i : Nat}

lemma modifyMethod_eq (h : c.members.findIdx? (fun m => m.content.isMethod p) = some i) : ∃ m,
    c.methodAt? i = some m ∧ firstMethod p c.members = some m ∧
      ∀ f, c.modifyMethod i f = { c with members := editMethod p f c.members } := by
  obtain ⟨⟨b, ct⟩, m, hg, hm, hf, he⟩ := exists_of_findIdx? isSome_method? h
  obtain ⟨rfl, -⟩ : ct = .method m ∧ p m := method?_eq_some_iff.1 hm
  refine ⟨m, by simp [methodAt?, hg], hf, fun f => ?_⟩
  rw [editMethod, he, modifyMethod, modify_eq_set_getElem?, hg]
  rfl

lemma prependToFieldFunction?_eq (stmt : String) (h : c.findFieldFunction name = some i) :
    ∃ x, firstFunctionText name c.members = some x ∧
      c.prependToFieldFunction? i name stmt = some { c with members := prependFirst name stmt c.members } := by
  obtain ⟨⟨b, ct⟩, x, hg, ht, hf, he⟩ := exists_of_findIdx? isSome_functionText? h
  obtain ⟨rfl, hs⟩ : ct = .other x ∧ _ := functionText?_eq_some_iff.1 ht
  obtain ⟨off, ho⟩ := isSome_iff_exists.1 hs
  refine ⟨x, hf, ?_⟩
  rw [prependFirst, he]
  simp [prependToFieldFunction?, hg, withFirst, ho]

end ClassDecl

def spaced : List Member → List Member
  | [] => []
  | m :: ms => { m with blankBefore := true } :: ms

lemma ClassDecl.insertMethod_eq (c : ClassDecl) (pos : Nat) (m : Method) : c.insertMethod pos m =
    { c with members := c.members.take pos ++ ⟨true, .method m⟩ :: spaced (c.members.drop pos) } := by
  rw [ClassDecl.insertMethod]
  cases c.members.drop pos <;> rfl

namespace Extended

variable {α : Type} {v : MemberContent → Option α} {added added' : List Method} {kept' result' : List Member}

lemma refl (ms : List Member) : Extended [] ms ms := by
  induction ms with
  | nil => exact .nil
  | cons m ms ih => simpa using ih.keep m false

lemma append (h : Extended added kept result) (h' : Extended added' kept' result') :
    Extended (added ++ added') (kept ++ kept') (result ++ result') := by
  induction h with
  | nil => exact h'
  | keep m b more ih => exact ih.keep m b
  | add m more ih => exact ih.add m

lemma spaced (h : Extended added kept result) : Extended added kept (Script.spaced result) := by
  cases h with
  | nil => exact .nil
  | keep m b more => simpa [Script.spaced] using more.keep m true
  | add m more => exact more.add m

lemma insert (ms : List Member) (pos : Nat) (m : Method) :
    Extended [m] ms (ms.take pos ++ ⟨true, .method m⟩ :: Script.spaced (ms.drop pos)) := by
  simpa using (refl (ms.take pos)).append ((refl (ms.drop pos)).spaced.add m)

lemma editFirst {g : α → MemberContent} (h : Extended added kept result) (ha : ∀ m ∈ added, v (.method m) = none) :
    Extended added (Script.editFirst v g kept) (Script.editFirst v g result) := by
  induction h with
  | nil => exact .nil
  | @keep added kept result m blank more ih =>
    cases hm : v m.content with
    | none =>
      rw [editFirst_cons_of_none hm, editFirst_cons_of_none (m := { m with blankBefore := m.blankBefore || blank }) hm]
      exact (ih ha).keep m blank
    | some a =>
      rw [editFirst_cons_of_some hm, editFirst_cons_of_some (m := { m with blankBefore := m.blankBefore || blank }) hm]
      exact more.keep { m with content := g a } blank
  | add m more ih =>
    obtain ⟨hm, ha⟩ := forall_mem_cons.1 ha
    rw [editFirst_cons_of_none (m := ⟨true, .method m⟩) hm]
    exact (ih ha).add m

lemma firstOf_eq (h : Extended added kept result) (ha : ∀ m ∈ added, v (.method m) = none) :
    firstOf v result = firstOf v kept := by
  induction h with
  | nil => rfl
  | keep m b more ih => rw [firstOf_cons, firstOf_cons, ih ha]
  | add m more ih =>
    obtain ⟨hm, ha⟩ := forall_mem_cons.1 ha
    rw [firstOf_cons, hm, ih ha, Option.none_or]

end Extended

def completeFirst (p usable : Method → Bool) (f : Method → Method) (ms : List Member) : List Member :=
  if (firstMethod p ms).any usable then editMethod p f ms else ms

def lacking (p usable : Method → Bool) (new : Method) (ms : List Member) : List Method :=
  if (firstMethod p ms).any usable then [] else [new]

/-- The first method of a sort changed, or a new one put in front of the members. -/
def completeOrAdd (p usable : Method → Bool) (f : Method → Method) (new : Method) (ms : List Member) : List Member :=
  if (firstMethod p ms).any usable then editMethod p f ms else ⟨true, .method new⟩ :: spaced ms

section Completing

variable {p usable : Method → Bool} {f : Method → Method} {new : Method}

lemma eq_of_mem_lacking (h : m ∈ lacking p usable new ms) : m = new := by
  rw [lacking] at h
  split at h
  · cases h
  · exact mem_singleton.1 h

lemma Extended.firstMethod_eq {added : List Method} (h : Extended added kept result)
    (ha : ∀ m ∈ added, p m = false) : firstMethod p result = firstMethod p kept :=
  h.firstOf_eq fun m hm => method?_eq_none (ha m hm)

lemma Extended.firstMethod_added (h : Extended [new] kept result) (hn : p new)
    (hk : firstMethod p kept = none) : firstMethod p result = some new := by
  generalize ha : [new] = added at h
  induction h with
  | nil => cases ha
  | keep m b more ih =>
    rw [firstMethod, firstOf_cons, Option.or_eq_none_iff] at hk
    rw [firstMethod, firstOf_cons, hk.1, Option.none_or]
    exact ih hk.2 ha
  | add m more ih =>
    obtain ⟨rfl, -⟩ := cons.inj ha
    simp [firstMethod, firstOf_cons, method?, hn]

lemma Extended.completeOrAdd {added : List Method} (h : Extended added kept result) (usable : Method → Bool)
    (f : Method → Method) (new : Method) (ha : ∀ m ∈ added, p m = false) :
    Extended (lacking p usable new kept ++ added) (completeFirst p usable f kept) (completeOrAdd p usable f new result) := by
  rw [lacking, completeFirst, Script.completeOrAdd, h.firstMethod_eq ha]
  split
  · exact h.editFirst fun m hm => method?_eq_none (ha m hm)
  · exact h.spaced.add new

lemma firstMethod_completeFirst {q : Method → Bool} (hq : ∀ m, p m → q m = false)
    (hf : ∀ m, p m → p (f m)) (ms : List Member) : firstMethod q (completeFirst p usable f ms) = firstMethod q ms := by
  rw [completeFirst]
  split
  · exact firstOf_editMethod (fun m hm => method?_eq_none (hq m hm)) hf ms
  · rfl

lemma firstOf_completeOrAdd {α : Type} {v : MemberContent → Option α} (hv : ∀ m, p m → v (.method m) = none)
    (hf : ∀ m, p m → p (f m)) (hn : p new) (ms : List Member) :
    firstOf v (completeOrAdd p usable f new ms) = firstOf v ms := by
  rw [completeOrAdd]
  split
  · exact firstOf_editMethod hv hf ms
  · exact ((Extended.refl ms).spaced.add new).firstOf_eq (by simpa using hv new hn)

lemma exists_firstMethod_completeOrAdd (usable : Method → Bool) (hf : ∀ m, p m → p (f m)) (new : Method)
    (hn : p new) (ms : List Member) :
    ∃ m, firstMethod p (completeOrAdd p usable f new ms) = some m ∧ ((∃ m₀, usable m₀ ∧ m = f m₀) ∨ m = new) := by
  rw [completeOrAdd]
  split
  · rename_i ha
    obtain ⟨m₀, hfi, hu⟩ := (Option.any_eq_true _ _).1 ha
    refine ⟨f m₀, ?_, .inl ⟨m₀, hu, rfl⟩⟩
    rw [firstMethod_editMethod hf, hfi, map_some]
  · refine ⟨new, ?_, .inr rfl⟩
    simp [firstMethod, firstOf_cons, method?, hn]

end Completing

end CustomElement.Script

namespace CustomElement.Component

open List Script Text

variable {ms result : List Member} {m : Method}

def isHook : Method → Bool := isInstance "connectedCallback"

def isRender : Method → Bool := isInstance "render"

def calling (m : Method) : Method := { m with body := plainStatement renderCall :: m.body }

/-- The statements with the one that attaches a shadow root behind the first call of `super`, or else first. -/
def attached (body : List Statement) : List Statement :=
  match body.dropWhile fun s => !s.startsWithCall "super" with
  | [] => plainStatement attachShadow :: body
  | call :: rest => (body.takeWhile fun s => !s.startsWithCall "super") ++ call :: plainStatement attachShadow :: rest

def attaching (m : Method) : Method := { m with body := attached m.body }

def rendering (body : List String) (m : Method) : Method := { m with params := "data", body := body.map plainStatement }

def newHook : Method := Method.plain "connectedCallback" "" [plainStatement renderCall]

def newConstructor : Method := Method.plain "constructor" "" [plainStatement "super();", plainStatement attachShadow]

def newRender (body : List String) : Method := Method.plain "render" "data" (body.map plainStatement)

/-- The members whose hook calls `render`: the first method, or else the first field with a function. -/
def hooked (ms : List Member) : List Member :=
  if (firstMethod isHook ms).isSome then editMethod isHook calling ms else prependFirst "connectedCallback" renderCall ms

def completed (shadow : Bool) (body : List String) (ms : List Member) : List Member :=
  completeFirst isRender (fun m => m.paramCount == 1) (rendering body)
    (if shadow then completeFirst constructs (fun _ => true) attaching (hooked ms) else hooked ms)

def missingHook (ms : List Member) : List Method :=
  if (firstMethod isHook ms).isSome || (firstFunctionText "connectedCallback" ms).isSome then [] else [newHook]

def missing (shadow : Bool) (body : List String) (ms : List Member) : List Method :=
  lacking isRender (fun m => m.paramCount == 1) (newRender body) ms ++
    ((if shadow then lacking constructs (fun _ => true) newConstructor ms else []) ++ missingHook ms)

def HookRenders (ms : List Member) : Prop :=
  (∃ m, firstMethod isHook ms = some m ∧ m.body.head? = some (plainStatement renderCall)) ∨
    firstMethod isHook ms = none ∧ ∃ text, firstFunctionText "connectedCallback" ms = some text ∧
      StartsWith "connectedCallback" renderCall text

lemma isInstance_of_ne {name other : String} (hn : name ≠ other) (h : m.isInstance name) : m.isInstance other = false := by
  simp only [isInstance, and_eq_true, beq_iff_eq] at h
  simp [isInstance, h.1.1, hn]

lemma constructs_of_isInstance (h : m.isInstance name) : m.constructs = false := by
  simp only [isInstance, and_eq_true, beq_iff_eq] at h
  simp [constructs, h.2]

lemma isInstance_of_constructs (h : m.constructs) : m.isInstance name = false := by
  simp only [constructs, beq_iff_eq] at h
  simp [isInstance, h]

lemma exists_of_callPosition {callee : String} {body : List Statement} {i : Nat} (h : callPosition body callee = some i) :
    ∃ call rest, body.dropWhile (fun s => !s.startsWithCall callee) = call :: rest ∧
      body.take (i + 1) = (body.takeWhile fun s => !s.startsWithCall callee) ++ [call] ∧ body.drop (i + 1) = rest := by
  rw [callPosition] at h
  induction body generalizing i with
  | nil => simp at h
  | cons s body ih =>
    rw [findIdx?_cons] at h
    by_cases hs : s.startsWithCall callee
    · obtain rfl : 0 = i := by simpa [hs] using h
      exact ⟨s, body, by simp [hs], by simp [hs], rfl⟩
    · obtain ⟨i, hi, rfl⟩ : ∃ j, body.findIdx? (fun s => s.startsWithCall callee) = some j ∧ j + 1 = i := by
        simpa [hs] using h
      obtain ⟨call, rest, hd, ht, hr⟩ := ih hi
      exact ⟨call, rest, by simpa [hs] using hd, by simpa [hs] using ht, by simpa using hr⟩

lemma insertStatement_super (body : List Statement) :
    insertStatement body ((callPosition body "super").elim 0 (· + 1)) (plainStatement attachShadow) = attached body := by
  cases hp : callPosition body "super" with
  | none =>
    have hn : body.dropWhile (fun s => !s.startsWithCall "super") = [] := by
      rw [dropWhile_eq_nil_iff]
      intro s hs
      simpa using findIdx?_eq_none_iff.1 hp s hs
    rw [attached, hn]
    rfl
  | some i =>
    obtain ⟨call, r, hd, ht, hr⟩ := exists_of_callPosition hp
    rw [attached, hd, Option.elim_some, insertStatement, ht, hr, append_assoc]
    rfl

lemma injectShadow_eq (c : ClassDecl) : injectShadow c = { c with
      members := completeOrAdd constructs (fun _ => true) attaching newConstructor c.members } := by
  rw [injectShadow, constructor?]
  cases hin : c.constructorIndex with
  | none =>
    have hf : firstMethod constructs c.members = none := firstOf_of_findIdx?_eq_none isSome_method? hin
    rw [completeOrAdd, hf]
    exact c.insertMethod_eq 0 _
  | some i =>
    obtain ⟨m, ha, hf, hm⟩ := ClassDecl.modifyMethod_eq (p := constructs) hin
    rw [completeOrAdd, hf]
    simp only [bind_eq_bind, bind_some, ha, Option.pure_def, any_some, if_true, hm]
    rw [editMethod_congr hf (g := attaching)]
    rw [attaching, insertStatement_super]

lemma spliceRender_eq (body : List String) (c : ClassDecl) : spliceRender body c = { c with
      members := completeOrAdd isRender (fun m => m.paramCount == 1) (rendering body) (newRender body) c.members } := by
  rw [spliceRender]
  cases hin : c.findMethod "render" with
  | none =>
    have hf : firstMethod isRender c.members = none := firstOf_of_findIdx?_eq_none isSome_method? hin
    rw [completeOrAdd, hf]
    exact c.insertMethod_eq 0 _
  | some i =>
    obtain ⟨m, ha, hf, hm⟩ := ClassDecl.modifyMethod_eq (p := isRender) hin
    rw [completeOrAdd, hf]
    by_cases hc : m.paramCount == 1
    · simp only [Option.filter_some, ha, any_some, hc, if_true, hm]
      rfl
    · simp only [Option.filter_some, ha, any_some, hc]
      exact c.insertMethod_eq 0 _

lemma injectRenderCall_eq (c : ClassDecl) : ∃ ms, injectRenderCall c = { c with members := ms } ∧
    Extended (missingHook c.members) (hooked c.members) ms := by
  rw [injectRenderCall, missingHook, hooked]
  cases hin : c.findMethod "connectedCallback" with
  | some i =>
    obtain ⟨m, -, hf, hm⟩ := ClassDecl.modifyMethod_eq (p := isHook) hin
    refine ⟨_, hm _, ?_⟩
    rw [hf]
    exact .refl _
  | none =>
    have hf : firstMethod isHook c.members = none := firstOf_of_findIdx?_eq_none isSome_method? hin
    rw [hf]
    cases hfi : c.findFieldFunction "connectedCallback" with
    | some i =>
      obtain ⟨x, hfirstText, hp⟩ := ClassDecl.prependToFieldFunction?_eq renderCall hfi
      refine ⟨_, by simp only [hp, getD_some]; rfl, ?_⟩
      rw [hfirstText]
      exact .refl _
    | none =>
      have hfirstText : firstFunctionText "connectedCallback" c.members = none :=
        firstOf_of_findIdx?_eq_none isSome_functionText? hfi
      have hs : prependFirst "connectedCallback" renderCall c.members = c.members := editFirst_eq_self hfirstText
      rw [hfirstText, hs]
      exact ⟨_, c.insertMethod_eq _ _, Extended.insert _ _ _⟩

def renderNodes : List Node :=
  [.leaf ⟨.word, "this", 0⟩, .leaf ⟨.punct, ".", 0⟩, .leaf ⟨.word, "render", 0⟩,
    .group ⟨.punct, "(", 0⟩ [.leaf ⟨.word, "this", 0⟩] ⟨.punct, ")", 0⟩, .leaf ⟨.punct, ";", 0⟩]

lemma readsClosed_renderCall : ReadsClosed renderCall renderNodes where
  balanced := by
    intro n hn
    simp only [renderNodes, mem_cons, not_mem_nil, or_false] at hn
    obtain rfl | rfl | rfl | rfl | rfl := hn
    · exact .leaf rfl rfl
    · exact .leaf rfl rfl
    · exact .leaf rfl rfl
    · exact .group rfl rfl (by simpa using .leaf rfl rfl)
    · exact .leaf rfl rfl
  reads rest fs h := by
    have hp : ∀ c cs, isWordPart c = false → ((c :: cs : List Char).head?.any isWordPart) = false := fun c cs hc => hc
    have hcl : Reads false false (')' :: ';' :: rest) _ :=
      .cons (lexes_single (by simp) _) (.cons (lexes_single (by simp) rest) h)
    have ha : Reads false false ('(' :: ("this".toList ++ ')' :: ';' :: rest)) _ :=
      .cons (lexes_single (by simp) _) (.cons (lexes_name (by decide) (.inl rfl) (hp ')' _ (by decide))) hcl)
    have hna : Reads false true ("render".toList ++ '(' :: ("this".toList ++ ')' :: ';' :: rest)) _ :=
      .cons (lexes_name (by decide) (.inl rfl) (hp '(' _ (by decide))) ha
    have ht : Lexes false true ("this".toList ++ '.' :: ("render".toList ++ '(' :: ("this".toList ++ ')' :: ';' :: rest)))
        _ _ := lexes_name (by decide) (.inl rfl) (hp '.' _ (by decide))
    exact .cons ht (.cons (lexes_point (show isWordStart 'r' = true by decide)) hna)

lemma codeOf_renderCall : (codeOf renderCall).map form = codeForms (tokensOf renderNodes) := by
  cbv

lemma gainsFirst_renderCall {name x : String} (h : (fieldFunctionBody x name).isSome) :
    GainsFirst name renderCall x (withFirst name renderCall x) :=
  gainsFirst_withFirst readsClosed_renderCall codeOf_renderCall h

lemma HookRenders.congr {ms' : List Member} (h : HookRenders ms) (hm : firstMethod isHook ms' = firstMethod isHook ms)
    (ht : firstFunctionText "connectedCallback" ms' = firstFunctionText "connectedCallback" ms) : HookRenders ms' := by
  rwa [HookRenders, hm, ht]

lemma firstMethod_hooked {p : Method → Bool} (hp : ∀ m, isHook m → p m = false) (ms : List Member) :
    firstMethod p (hooked ms) = firstMethod p ms := by
  rw [hooked]
  split
  · refine firstOf_editMethod (fun m hm => method?_eq_none (hp m hm)) ?_ ms
    exact fun _ hm => hm
  · exact firstMethod_prependFirst _ _ ms

lemma exists_firstFunctionText_prependFirst {name x : String} (h : firstFunctionText name ms = some x) :
    ∃ x', firstFunctionText name (prependFirst name renderCall ms) = some x' ∧ StartsWith name renderCall x' := by
  have hk : ∀ (ct : MemberContent) x, ct.functionText? name = some x →
      (MemberContent.other (withFirst name renderCall x)).functionText? name = some (withFirst name renderCall x) := by
    intro ct x ht
    obtain ⟨pre, -, -, hb, -⟩ := (gainsFirst_renderCall (functionText?_eq_some_iff.1 ht).2).startsWith
    exact functionText?_eq_some_iff.2 ⟨rfl, by rw [hb]; rfl⟩
  obtain ⟨m, -, hm⟩ := exists_of_findSome?_eq_some h
  refine ⟨withFirst name renderCall x, ?_, (gainsFirst_renderCall (functionText?_eq_some_iff.1 hm).2).startsWith⟩
  exact (firstOf_editFirst_self hk ms).trans (congrArg _ h)

lemma hookRenders_hooked (h : Extended (missingHook ms) (hooked ms) result) : HookRenders result := by
  cases hme : firstMethod isHook ms with
  | some m =>
    simp only [missingHook, hooked, hme, Option.isSome_some, Bool.true_or, if_true] at h
    refine .inl ⟨calling m, ?_, rfl⟩
    rw [h.firstMethod_eq (by simp), firstMethod_editMethod (p := isHook) (f := calling) fun _ hm => hm, hme, map_some]
  | none =>
    have hk : firstMethod isHook (prependFirst "connectedCallback" renderCall ms) = none := by
      rw [firstMethod_prependFirst, hme]
    cases ht : firstFunctionText "connectedCallback" ms with
    | none =>
      simp only [missingHook, hooked, hme, ht, Option.isSome_none, Bool.or_self, false_eq_true, if_false] at h
      exact .inl ⟨_, h.firstMethod_added (p := isHook) rfl hk, rfl⟩
    | some x =>
      simp only [missingHook, hooked, hme, ht, Option.isSome_none, Option.isSome_some, Bool.or_true, false_eq_true, if_false,
        if_true] at h
      obtain ⟨x', hf, hs⟩ := exists_firstFunctionText_prependFirst ht
      refine .inr ⟨by rw [h.firstMethod_eq (by simp), hk], x', ?_, hs⟩
      exact (h.firstOf_eq (by simp)).trans hf

/-- The members after the hook, with the constructor completed or added for a shadow root. -/
def shadowed (shadow : Bool) (ms : List Member) : List Member :=
  if shadow then completeOrAdd constructs (fun _ => true) attaching newConstructor ms else ms

lemma wire_eq {shadow : Bool} {body : List String} {c : ClassDecl}
    (h : injectRenderCall c = { c with members := ms }) : wire shadow body c = { c with
        members := completeOrAdd isRender (fun m => m.paramCount == 1) (rendering body) (newRender body)
          (shadowed shadow ms) } := by
  rw [wire, h, spliceRender_eq, shadowed]
  cases shadow with
  | false => rfl
  | true => simp only [if_true, injectShadow_eq]

section Stages

variable {shadow : Bool}

lemma isHook_of_mem_missingHook (h : m ∈ missingHook ms) : isHook m := by
  rw [missingHook] at h
  split at h
  · cases h
  · obtain rfl := mem_singleton.1 h
    rfl

lemma extended_shadowed (h : Extended (missingHook ms) (hooked ms) result) :
    Extended ((if shadow then lacking constructs (fun _ => true) newConstructor ms else []) ++ missingHook ms)
      (if shadow then completeFirst constructs (fun _ => true) attaching (hooked ms) else hooked ms)
      (shadowed shadow result) := by
  cases shadow with
  | false => exact h
  | true =>
    have hf := firstMethod_hooked (p := constructs) (fun m hm => constructs_of_isInstance hm) ms
    have ha : ∀ m ∈ missingHook ms, m.constructs = false := fun m hm =>
      constructs_of_isInstance (isHook_of_mem_missingHook hm)
    have hal := h.completeOrAdd (fun _ => true) attaching newConstructor ha
    rwa [lacking, hf, ← lacking] at hal

lemma firstOf_shadowed {α : Type} {v : MemberContent → Option α} (hv : ∀ m, m.constructs → v (.method m) = none)
    (ms : List Member) : firstOf v (shadowed shadow ms) = firstOf v ms := by
  rw [shadowed]
  split
  · refine firstOf_completeOrAdd hv ?_ rfl ms
    exact fun _ hm => hm
  · rfl

lemma extended_rendered (body : List String) (h : Extended (missingHook ms) (hooked ms) result) :
    Extended (missing shadow body ms) (completed shadow body ms)
      (completeOrAdd isRender (fun m => m.paramCount == 1) (rendering body) (newRender body) (shadowed shadow result)) := by
  have ha : ∀ m ∈ (if shadow then lacking constructs (fun _ => true) newConstructor ms else []) ++ missingHook ms,
      isRender m = false := by
    intro m hm
    rcases mem_append.1 hm with hm | hm
    · split at hm
      · rw [eq_of_mem_lacking hm]
        rfl
      · cases hm
    · exact isInstance_of_ne (by decide) (isHook_of_mem_missingHook hm)
  have hf : firstMethod isRender
      (if shadow then completeFirst constructs (fun _ => true) attaching (hooked ms) else hooked ms) = firstMethod isRender ms := by
    rw [← firstMethod_hooked (p := isRender) (fun m hm => isInstance_of_ne (by decide) hm) ms]
    split
    · exact firstMethod_completeFirst (p := constructs) (f := attaching) (fun m hm => isInstance_of_constructs hm)
        (fun _ hm => hm) _
    · rfl
  have hal := (extended_shadowed h).completeOrAdd (fun m => m.paramCount == 1) (rendering body) (newRender body) ha
  rwa [lacking, hf, ← lacking] at hal

end Stages

/-- **Wiring touches only what it must.** The members of the class stay in their order, the first of each sort that is
needed completed; those it lacks are put in. -/
theorem wire_members (shadow : Bool) (body : List String) (c : ClassDecl) :
    wire shadow body c = { c with members := (wire shadow body c).members } ∧
    Extended (missing shadow body c.members) (completed shadow body c.members) (wire shadow body c).members ∧
    (∀ text, (fieldFunctionBody text "connectedCallback").isSome = true →
      GainsFirst "connectedCallback" renderCall text (withFirst "connectedCallback" renderCall text)) ∧
    HookRenders (wire shadow body c).members ∧
    (∃ m, firstMethod isRender (wire shadow body c).members = some m ∧ m.params = "data" ∧ m.body = body.map plainStatement) ∧
    (shadow = true → ∃ m rest, firstMethod Method.constructs (wire shadow body c).members = some m ∧ m.body = attached rest) := by
  obtain ⟨ms, hinject, hhooked⟩ := injectRenderCall_eq c
  -- The last step leaves alone what the others look for.
  have hlast : ∀ {α : Type} {v : MemberContent → Option α}, (∀ m, isRender m = true → v (.method m) = none) →
      firstOf v (wire shadow body c).members = firstOf v (shadowed shadow ms) := by
    intro α v hv
    rw [wire_eq hinject]
    refine firstOf_completeOrAdd hv ?_ rfl _
    exact fun _ hm => hm
  refine ⟨by rw [wire_eq hinject], ?_, fun text h => gainsFirst_renderCall h, ?_, ?_, fun hshadow => ?_⟩
  · rw [wire_eq hinject]
    exact extended_rendered body hhooked
  · refine (hookRenders_hooked hhooked).congr ?_ ?_
    · have hrender : ∀ m, isRender m = true → (MemberContent.method m).method? isHook = none := fun m hm =>
        method?_eq_none (isInstance_of_ne (by decide) hm)
      exact (hlast hrender).trans (firstOf_shadowed (fun m hm => method?_eq_none (isInstance_of_constructs hm)) ms)
    · exact (hlast fun _ _ => rfl).trans (firstOf_shadowed (fun _ _ => rfl) ms)
  · obtain ⟨m, hm, hcases⟩ := exists_firstMethod_completeOrAdd (p := isRender) (fun m => m.paramCount == 1)
      (f := rendering body) (fun _ hm => hm) (newRender body) rfl (shadowed shadow ms)
    refine ⟨m, by rwa [wire_eq hinject], ?_⟩
    rcases hcases with ⟨m₀, -, rfl⟩ | rfl <;> exact ⟨rfl, rfl⟩
  · obtain ⟨m, hm, hcases⟩ := exists_firstMethod_completeOrAdd (p := Method.constructs) (fun _ => true)
      (f := attaching) (fun _ hm => hm) newConstructor rfl ms
    have hbody : ∃ rest, m.body = attached rest := by
      rcases hcases with ⟨m₀, -, rfl⟩ | rfl
      · exact ⟨m₀.body, rfl⟩
      · exact ⟨[plainStatement "super();"], by cbv⟩
    obtain ⟨rest, hrest⟩ := hbody
    refine ⟨m, rest, ?_, hrest⟩
    refine (hlast fun m hm => method?_eq_none (constructs_of_isInstance hm)).trans ?_
    rwa [shadowed, if_pos hshadow]

end CustomElement.Component
