import CustomElement.Component.Compile
import CustomElement.Proofs.Outcome

/-!
# Strict and lenient compilation

The modes of a compilation differ only where a style cannot be flattened or the types of a script cannot be erased: the
lenient one goes on with less and reports an error, the strict one stops.
-/

namespace CustomElement.Component

open Files Markup Script

def Reported.hasErrors {α : Type} (r : Reported α) : Bool :=
  r.diagnostics.any fun d => d.severity == .error

/-- The failures by which the strict mode refuses what the lenient mode gets over. -/
def Failure.isRefusal : Failure → Bool
  | .styleFailed _ | .typesNotErased _ => true
  | _ => false

lemma Failure.code_of_isRefusal {f : Failure} (h : f.isRefusal) :
    f.code = "style-failed" ∨ f.code = "transpile-failed" := by
  cases f with
  | styleFailed fault => exact .inl rfl
  | typesNotErased fault => exact .inr rfl
  | _ => cases h

/-- How the outcome of a stage in strict mode compares with the one in lenient mode. -/
inductive Tightened {α : Type} :
    Except Failure (Reported α) → Except Failure (Reported α) → Prop
  | kept {r : Reported α} (hclean : r.hasErrors = false) : Tightened (.ok r) (.ok r)
  | failed (f : Failure) : Tightened (.error f) (.error f)
  | refused {r : Reported α} {f : Failure} (herrors : r.hasErrors = true)
      (hf : f.isRefusal = true) : Tightened (.ok r) (.error f)
  /-- The lenient run went on with less and failed later. -/
  | outrun {f g : Failure} (hg : g.isRefusal = true) : Tightened (.error f) (.error g)

/-- A stage, and another one on its value, with the diagnostics of both. -/
def andThen {α β : Type} (x : Except Failure (Reported α))
    (next : α → Except Failure (Reported β)) : Except Failure (Reported β) := do
  let a ← x
  let b ← next a.value
  return ⟨b.value, a.diagnostics ++ b.diagnostics⟩

section Stages

variable {α β : Type} {lenient strict : Except Failure (Reported α)}

lemma andThen_error (f : Failure) (next : α → Except Failure (Reported β)) : andThen (.error f) next = .error f := rfl

lemma andThen_ok (r : Reported α) (next : α → Except Failure (Reported β)) : andThen (.ok r) next =
      (next r.value).map fun b => ⟨b.value, r.diagnostics ++ b.diagnostics⟩ := by
  cases hn : next r.value <;> simp [andThen, bind, Except.bind, pure, Except.pure, Except.map, hn]

lemma bind_bind_eq_andThen (x : Except Failure (Reported α)) (next : α → Except Failure (Reported β))
    (ds : List Diagnostic) : (do
      let a ← x let b ← next a.value return (⟨b.value, ds ++ a.diagnostics ++ b.diagnostics⟩ : Reported β)) =
      (andThen x next).map fun r => (⟨r.value, ds ++ r.diagnostics⟩ : Reported β) := by
  cases x with
  | error f => rfl
  | ok a =>
    rw [andThen_ok]
    cases hn : next a.value with
    | error f => simp [bind, Except.bind, Except.map, hn]
    | ok b => simp [bind, Except.bind, pure, Except.pure, Except.map, hn]

lemma Tightened.map {γ : Type} {x y : Except Failure (Reported β)} (h : Tightened x y)
    {f : Reported β → Reported γ} (hf : ∀ r, (f r).hasErrors = r.hasErrors) : Tightened (x.map f) (y.map f) := by
  cases h with
  | kept hc => exact .kept ((hf _).trans hc)
  | failed e => exact .failed e
  | refused her he => exact .refused ((hf _).trans her) he
  | outrun he => exact .outrun he

lemma hasErrors_append {γ : Type} {ds : List Diagnostic} (v : γ) (r : Reported β)
    (hc : (ds.any fun d => d.severity == .error) = false) :
    Reported.hasErrors (⟨v, ds ++ r.diagnostics⟩ : Reported γ) = r.hasErrors := by
  simp [Reported.hasErrors, hc]

lemma Tightened.andThen (h : Tightened lenient strict)
    {next next' : α → Except Failure (Reported β)} (hn : ∀ a, Tightened (next a) (next' a)) :
    Tightened (andThen lenient next) (andThen strict next') := by
  cases h with
  | kept hc =>
    rw [andThen_ok, andThen_ok]
    exact (hn _).map fun b => hasErrors_append b.value b hc
  | failed f => exact .failed f
  | outrun hg => exact .outrun hg
  | refused he hf =>
    -- The strict run has stopped, whatever becomes of the lenient one.
    rename_i r f
    rw [andThen_ok, andThen_error]
    cases next r.value with
    | error g => exact .outrun hf
    | ok b => exact .refused (by simp only [Reported.hasErrors] at he; simp [Reported.hasErrors, he]) hf

lemma Tightened.refl {x : Except Failure (Reported α)} (h : ∀ r, x = .ok r → r.hasErrors = false) : Tightened x x := by
  cases x with
  | error f => exact .failed f
  | ok r => exact .kept (h r rfl)

lemma Tightened.bind {x : Except Failure α} {f g : α → Except Failure (Reported β)}
    (h : ∀ a, Tightened (f a) (g a)) : Tightened (x >>= f) (x >>= g) := by
  cases x with
  | error e => exact .failed e
  | ok a => exact h a

end Stages

def Setting.inMode (s : Setting) (strict : Bool) : Setting := { s with strict := strict }

variable (s : Setting)

lemma chooseDialect_hasErrors {α : Type} (ofTag? : String → Option α) (default : α)
    (unknown : String → Diagnostic) (hu : ∀ tag, (unknown tag).severity = .warning)
    (tag : Option String) : (chooseDialect ofTag? default unknown tag).hasErrors = false := by
  cases tag with
  | none => rfl
  | some tag =>
    unfold chooseDialect
    dsimp only
    cases ofTag? tag with
    | some dialect => rfl
    | none => simp [Reported.hasErrors, hu]

lemma tightened_styleRules (dialect : StyleDialect) (ct : String) :
    Tightened ((s.inMode false).styleRules dialect ct) ((s.inMode true).styleRules dialect ct) := by
  cases dialect with
  | css => exact .kept rfl
  | scss =>
    simp only [Setting.styleRules, Setting.inMode]
    cases s.toolchain.flattenSheet s.files s.path.directory ct with
    | ok css => exact .kept rfl
    | error fault => exact .refused rfl rfl

lemma tightened_plainScript (dialect : ScriptDialect) (ct : String) : Tightened ((s.inMode false).plainScript dialect ct)
      ((s.inMode true).plainScript dialect ct) := by
  cases dialect with
  | plain => exact .kept rfl
  | typed =>
    simp only [Setting.plainScript, Setting.inMode]
    cases stripTypes s.toolchain.grammar ct with
    | ok plain => exact .kept rfl
    | error fault => exact .refused rfl rfl

lemma tightened_buildStyle (doc : Document) :
    Tightened ((s.inMode false).buildStyle doc) ((s.inMode true).buildStyle doc) := by
  unfold Setting.buildStyle
  cases doc.style with
  | none => exact .kept rfl
  | some style =>
    have hd := chooseDialect_hasErrors StyleDialect.ofTag? .css .unknownStyle (fun _ => rfl) style.lang
    refine Tightened.bind fun ct => ?_
    exact (tightened_styleRules s _ ct).map fun rules => hasErrors_append _ rules hd

lemma tightened_buildTemplate (doc : Document) (style : String) :
    Tightened ((s.inMode false).buildTemplate doc style) ((s.inMode true).buildTemplate doc style) := by
  have hm : (s.inMode true).buildTemplate doc style = (s.inMode false).buildTemplate doc style := rfl
  rw [hm]
  refine Tightened.refl fun r hr => ?_
  obtain ⟨ct, -, hr⟩ := bind_eq_ok.1 hr
  cases hr
  have he := chooseDialect_hasErrors Engine.ofTag? .html .unknownEngine (fun _ => rfl) doc.template.lang
  simp only [Reported.hasErrors] at he ⊢
  rw [List.any_append, he, Bool.false_or]
  cases Engine.package? _ with
  | none => rfl
  | some package => rfl

lemma hasErrors_wireModule {doc : Document} {template : TemplateCode} {m : Module} {r : Reported String}
    (h : wireModule doc template m = .ok r) : r.hasErrors = false := by
  unfold wireModule at h
  split at h
  · split at h
    · cases h
      simp only [Reported.hasErrors]
      split <;> rfl
    · cases h
  · cases h

lemma tightened_buildScript (doc : Document) (template : TemplateCode) :
    Tightened ((s.inMode false).buildScript doc template) ((s.inMode true).buildScript doc template) := by
  have hdi := chooseDialect_hasErrors ScriptDialect.ofTag? .plain .unknownScript (fun _ => rfl)
    doc.script.lang
  refine Tightened.bind fun ct => ?_
  have hwi : ∀ plain, Tightened ((normalize plain >>= parseModule).mapError Failure.script >>= wireModule doc template)
        ((normalize plain >>= parseModule).mapError Failure.script >>= wireModule doc template) :=
    fun plain => Tightened.bind fun m => Tightened.refl fun r hr => hasErrors_wireModule hr
  have hw := (tightened_plainScript s (chooseDialect ScriptDialect.ofTag? .plain .unknownScript
    doc.script.lang).value ct).andThen hwi
  have hd := hw.map fun r => hasErrors_append r.value r hdi
  rw [← bind_bind_eq_andThen, ← bind_bind_eq_andThen] at hd
  simpa only [bind_assoc] using hd

lemma tightened_compile (src : String) : Tightened ((s.inMode false).compile src) ((s.inMode true).compile src) := by
  refine Tightened.bind fun doc => ?_
  have hs : ((selectorDiagnostics doc.script.selector).any fun d => d.severity == .error) = false := by
    unfold selectorDiagnostics
    split <;> rfl
  have hst := (tightened_buildStyle s doc).andThen fun style =>
    (tightened_buildTemplate s doc style).andThen (tightened_buildScript s doc)
  have hd := hst.map fun r => hasErrors_append r.value r hs
  rw [← bind_bind_eq_andThen, ← bind_bind_eq_andThen] at hd
  simpa only [andThen, bind_assoc, pure_bind, List.append_assoc] using hd

lemma hasErrors_eq_false {α : Type} {r : Reported α} : r.hasErrors = false ↔ ∀ d ∈ r.diagnostics, d.severity ≠ .error := by
  simp [Reported.hasErrors]

lemma hasErrors_eq_true {α : Type} {r : Reported α} : r.hasErrors ↔ ∃ d ∈ r.diagnostics, d.severity = .error := by
  simp [Reported.hasErrors]

/-- **The strict mode refuses degraded output and differs in nothing else.** What it produces the lenient mode produces
without an error, and the other way round; where the lenient mode reports an error the strict mode fails because of the
style or the types; and where the lenient mode fails the strict mode fails, for the same cause or because it stopped
earlier. -/
theorem strict_compile_refuses_degraded (toolchain : Toolchain) (files : FileView) (path : Path)
    (source : String) :
    let lenient := (Setting.mk toolchain files path false).compile source
    let strict := (Setting.mk toolchain files path true).compile source
    (∀ out, strict = .ok out → lenient = .ok out ∧ ∀ d ∈ out.diagnostics, d.severity ≠ .error) ∧
    (∀ out, lenient = .ok out → (∀ d ∈ out.diagnostics, d.severity ≠ .error) → strict = .ok out) ∧
    (∀ out, lenient = .ok out → (∃ d ∈ out.diagnostics, d.severity = .error) →
      ∃ f, strict = .error f ∧ (f.code = "style-failed" ∨ f.code = "transpile-failed")) ∧
    (∀ f, lenient = .error f →
      ∃ g, strict = .error g ∧ (g = f ∨ g.code = "style-failed" ∨ g.code = "transpile-failed")) := by
  intro lenient strict
  have htight : Tightened lenient strict := tightened_compile ⟨toolchain, files, path, true⟩ source
  simp only [← hasErrors_eq_false, ← hasErrors_eq_true]
  clear_value lenient strict
  cases htight with
  | kept hclean => simp_all
  | failed f => simp
  | refused herrors hf => simp_all [Failure.code_of_isRefusal hf]
  | outrun hg => simp [Failure.code_of_isRefusal hg]

end CustomElement.Component
