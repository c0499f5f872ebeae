/-
Tabletop.Proofs.Machine.Resolve — the value of a template on the machine.

The machine cuts a template into segments, reads the expressions, computes
their values and writes them into the text. The template and the values of
the scope lie in its memory. It never cuts through a character, looks
where there is nothing, computes a number that is no word, or goes round
without end: it comes to the value or the fault of the template, unless a
value on the way is too long for the memory.

  §1 The machine
  §2 Scopes
  §3 Segments
  §4 Templates
-/
import Tabletop.Proofs.Machine.Eval
import Tabletop.Proofs.Machine.Grammar
import Tabletop.Proofs.Machine.Segment
import Tabletop.Template.Resolve

namespace Tabletop

namespace Machine

/-! ## §1 The machine -/

/-- The value of the source of an expression. -/
def evalSource (scope : Scope) (source : List Char) : Attempt Fault Value := do
  let e ← ExceptT.adapt Fault.grammar (parse source)
  eval scope e

/-- The segments written behind what is rendered already. -/
def render (scope : Scope) : (rendered : String) → List Segment → Attempt Fault String
  | rendered, [] => pure rendered
  | rendered, .text cs :: rest => render scope (rendered ++ String.ofList cs) rest
  | rendered, .expression source :: rest => do
      let v ← evalSource scope source
      render scope (rendered ++ v.render) rest

/-- The value of segments. -/
def evalSegments (scope : Scope) (parts : List Segment) : Attempt Fault Value :=
  match parts.filter fun p => !p.isBlank with
  | [.expression source] => evalSource scope source
  | _ => do
      let rendered ← render scope "" parts
      liftM (store (.text rendered))

/-- The value of a template. -/
def resolve (template : String) (scope : Scope) : Attempt TemplateError Value :=
  if hasMarkers template then do
    match ← segments template.toList with
    | none => throw ⟨template, .unclosed⟩
    | some parts => ExceptT.adapt (fun fault => ⟨template, fault⟩) (evalSegments scope parts)
  else pure (.text template)

/-! ## §2 Scopes -/

/-- The scope is that of a value in memory, or of named values there. -/
inductive InMemory : Scope → Prop
  | value {v : Value} (fits : Fits v) : InMemory v.scope
  | fields {fields : Fields} (fits : ∀ f ∈ fields, Fits f.2) : InMemory (Fields.scope fields)

theorem Fits.at? {v w : Value} (h : Fits v) {path : Path} (there : v.at? path = some w) :
    Fits w := by
  induction path generalizing v with
  | nil =>
    cases there
    exact h
  | cons segment rest ih =>
    obtain ⟨u, child, there⟩ := Option.bind_eq_some_iff.mp there
    exact ih (h.child? child) there

/-- What is found in such a scope is in memory too. -/
theorem InMemory.fits {scope : Scope} (h : InMemory scope) (path : Path) (v : Value)
    (found : scope path = some v) : Fits v := by
  cases h with
  | value fits => exact fits.at? found
  | fields fits =>
    cases path with
    | nil => cases found
    | cons name rest =>
      obtain ⟨u, field, there⟩ := Option.bind_eq_some_iff.mp found
      exact (fits (name, u) (Entries.mem_of_get? field)).at? there

/-! ## §3 Segments -/

section Segments

variable {scope : Scope} {parts : List Segment}

/-- One of the expressions has a part whose value is too long for the memory. -/
def Overfull (scope : Scope) (parts : List Segment) : Prop :=
  ∃ source e, .expression source ∈ parts ∧ Expr.parse source = .ok e ∧ Crowded scope e.parts

/-- The machine computes the value of the source of an expression. -/
theorem evalSource_held (fits : ∀ path v, scope path = some v → Fits v) {source : List Char}
    (small : source.length + 1 < wordBound) (mem : .expression source ∈ parts) :
    Answers (Overfull scope parts) Held (Tabletop.evalSource scope source)
      (evalSource scope source) := by
  have both : Tabletop.evalSource scope source
      = (Expr.parse source).mapError Fault.grammar >>= fun e => e.eval scope := by
    unfold Tabletop.evalSource
    cases Expr.parse source <;> rfl
  rw [both, evalSource]
  refine (((parse_eq small).adapt Fault.grammar).mono False.elim fun _ _ => id).bind_of_eq ?_
  rintro e _ mapped rfl
  have parsed : Expr.parse source = .ok e := by
    cases read : Expr.parse source with
    | error fault =>
      rw [read] at mapped
      cases mapped
    | ok e' =>
      rw [read] at mapped
      cases mapped
      rfl
  exact (eval_held fits e).mono (fun crowded => ⟨source, e, mem, parsed, crowded⟩) fun _ _ => id

/-- The machine writes the segments behind what it has written before. -/
theorem render_held (fits : ∀ path v, scope path = some v → Fits v)
    (small : ∀ source, .expression source ∈ parts → source.length + 1 < wordBound)
    {ahead : List Segment} (sub : ∀ p ∈ ahead, p ∈ parts) (rendered : String) :
    Answers (Overfull scope parts) (fun more whole => whole = rendered ++ more)
      (renderSegments scope ahead) (render scope rendered ahead) := by
  induction ahead generalizing rendered with
  | nil => exact .value String.append_empty.symm
  | cons part rest ih =>
    have sub_rest : ∀ p ∈ rest, p ∈ parts := fun p mem => sub p (List.mem_cons_of_mem part mem)
    have behind (written : String) := (ih sub_rest (rendered ++ written)).after (written ++ ·)
      (T := fun more whole => whole = rendered ++ more)
      fun more whole same => by rw [same, String.append_assoc]
    cases part with
    | text cs =>
      rw [renderSegments, render]
      exact behind (String.ofList cs)
    | expression source =>
      have mem := sub _ List.mem_cons_self
      rw [renderSegments, render]
      refine (evalSource_held fits (small source mem) mem).bind ?_
      rintro v _ ⟨hv⟩
      exact behind v.render

/-- The text of the segments is put into memory. -/
theorem renderText_held (fits : ∀ path v, scope path = some v → Fits v)
    (small : ∀ source, .expression source ∈ parts → source.length + 1 < wordBound) :
    Answers (Overfull scope parts
        ∨ ∃ v, (renderSegments scope parts).map Value.text = .ok v ∧ hasRoom v = false) Held
      ((renderSegments scope parts).map Value.text)
      (render scope "" parts >>= fun rendered => liftM (store (.text rendered))) := by
  have both : (renderSegments scope parts).map Value.text
      = renderSegments scope parts >>= fun s => .ok (.text s) := by
    cases renderSegments scope parts <;> rfl
  rw [both]
  refine ((render_held fits small (fun _ => id) "").mono .inl fun _ _ => id).bind_of_eq ?_
  rintro s _ computed rfl
  rw [String.empty_append]
  refine store_held fits_text fun full => .inr ⟨.text s, ?_, full⟩
  rw [computed]
  rfl

/-- The machine computes the value of segments. -/
theorem evalSegments_held (fits : ∀ path v, scope path = some v → Fits v)
    (small : ∀ source, .expression source ∈ parts → source.length + 1 < wordBound) :
    Answers (Overfull scope parts
        ∨ ∃ v, Tabletop.evalSegments scope parts = .ok v ∧ hasRoom v = false) Held
      (Tabletop.evalSegments scope parts) (evalSegments scope parts) := by
  have text := renderText_held fits small
  unfold Tabletop.evalSegments evalSegments
  cases significant : parts.filter fun p => !p.isBlank with
  | nil => exact text
  | cons p others =>
    cases others with
    | cons q more => cases p <;> exact text
    | nil =>
      cases p with
      | text cs => exact text
      | expression source =>
        have mem : .expression source ∈ parts :=
          (List.mem_filter.mp (significant ▸ List.mem_cons_self)).1
        exact (evalSource_held fits (small source mem) mem).mono .inl fun _ _ => id

end Segments

/-! ## §4 Templates -/

/-- A value that is needed for the template is too long for the memory: that of a part of an
expression, or its own. -/
def Exhausts (template : String) (scope : Scope) : Prop :=
  (∃ parts, Tabletop.segments template.toList = some parts ∧ Overfull scope parts)
    ∨ ∃ v, resolveTemplate template scope = .ok v ∧ hasRoom v = false

theorem resolve_held {template : String} {scope : Scope}
    (short : template.utf8ByteSize ≤ maxLength)
    (fits : ∀ path v, scope path = some v → Fits v) :
    Answers (Exhausts template scope) Held (resolveTemplate template scope)
      (resolve template scope) := by
  have bytes : String.utf8Len template.toList ≤ maxLength :=
    (utf8Len_toList template).trans_le short
  have bound : maxLength + 1 < wordBound := by decide
  unfold resolve
  by_cases markers : hasMarkers template = true
  · rw [if_pos markers, lift_bind (segments_eq (by omega))]
    cases cut : Tabletop.segments template.toList with
    | none =>
      rw [resolveTemplate, if_pos markers, cut]
      exact .fault _
    | some parts =>
      have resolved : resolveTemplate template scope
          = (Tabletop.evalSegments scope parts).mapError fun fault => ⟨template, fault⟩ := by
        rw [resolveTemplate, if_pos markers, cut]
      have small : ∀ source, .expression source ∈ parts → source.length + 1 < wordBound := by
        intro source mem
        have := length_source_le cut mem
        have := length_le_utf8Len template.toList
        omega
      rw [resolved]
      refine ((evalSegments_held fits small).adapt _).mono ?_ fun _ _ => id
      rintro (overfull | ⟨v, value, full⟩)
      · exact .inl ⟨parts, cut, overfull⟩
      · refine .inr ⟨v, ?_, full⟩
        rw [resolved, value]
        rfl
  · rw [resolveTemplate, if_neg markers, if_neg markers]
    exact .value ⟨.text short⟩

/-- Resolving a template comes to its value or its fault: nothing is cut inside a character, looked
up where there is nothing, too large for a word, or without end. Only the memory may be too small,
and then for a value that the template needs. A repeated text is never that large. -/
theorem resolve_never_stops (template : String) (scope : Scope)
    (short : template.utf8ByteSize ≤ maxLength) (memory : InMemory scope) :
    ((resolve template scope).run = .ok (resolveTemplate template scope)
        ∨ (resolve template scope).run = .error .outOfMemory ∧ Exhausts template scope)
      ∧ ∀ left right text, multiply left right = pure (.text text) →
          text.utf8ByteSize ≤ 2 ^ 20 := by
  constructor
  · have held := resolve_held short memory.fits
    generalize resolve template scope = m at held ⊢
    generalize resolveTemplate template scope = x at held ⊢
    cases held with
    | value related =>
      cases related
      exact .inl rfl
    | fault e => exact .inl rfl
    | memory spent => exact .inr ⟨rfl, spent⟩
  · intro left right text repeated
    rw [multiply_eq] at repeated
    cases product : Tabletop.multiply left right with
    | error fault =>
      rw [product] at repeated
      cases repeated
    | ok v =>
      rw [product] at repeated
      cases repeated
      obtain plain | ⟨text', same, limited⟩ := multiply_cases product
      · cases plain
      · cases same
        exact limited

/-- A pouch with two gems. -/
def pouch : Value := .mapping [("gems", .list [.text "opal", .text "saphír"])]

/-- The last gem, the one at the least signed word, and the remainder of that by minus one. -/
def appraisal : String :=
  "\x7b\x7b gems[-1] \x7d\x7d \x7b\x7b gems[-9223372036854775807 - 1] \x7d\x7d"
    ++ "\x7b\x7b (-9223372036854775807 - 1) % -1 \x7d\x7d\x7b\x7b 'é' * 2 \x7d\x7d"

theorem appraisal_never_stops :
    appraisal.utf8ByteSize ≤ maxLength ∧ InMemory pouch.scope ∧
    ∃ v, (resolve appraisal pouch.scope).run = .ok (.ok v) ∧ v.asText? = some "saphír 0éé" := by
  have short : appraisal.utf8ByteSize ≤ maxLength := by decide +kernel
  have memory : InMemory pouch.scope := by
    have opal : Fits (.text "opal") := .text (by decide +kernel)
    have saphir : Fits (.text "saphír") := .text (by decide +kernel)
    have gems : Fits (.list [.text "opal", .text "saphír"]) :=
      .list (by decide) (by simp [opal, saphir])
    exact .value (.mapping (by decide) (by simp [gems]))
  refine ⟨short, memory, ?_⟩
  obtain ⟨same | ⟨stopped, -⟩, -⟩ := resolve_never_stops appraisal pouch.scope short memory
  · have shown : (resolveTemplate appraisal pouch.scope).toOption.bind Value.asText?
        = some "saphír 0éé" := by decide +kernel
    cases value : resolveTemplate appraisal pouch.scope with
    | error e =>
      rw [value] at shown
      cases shown
    | ok v =>
      rw [value] at same shown
      exact ⟨v, same, shown⟩
  · have runs : (resolve appraisal pouch.scope).run.isOk = true := by decide +kernel
    rw [stopped] at runs
    cases runs

end Machine

end Tabletop
