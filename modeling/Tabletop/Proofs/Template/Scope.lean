/-
Tabletop.Proofs.Template.Scope — what templates read of their scope.

An expression asks its scope for the paths that are written in it and for
nothing else: a variable is such a path, and a chain of accesses is one or is
walked from the value of its base. So scopes that agree on these paths give
the expression, and with it the template, the same value or the same error.
All of them begin with a name; what a scope says of the empty path does not
matter.

  §1 Scopes that agree
  §2 The paths that are read
  §3 Expressions
  §4 Templates
-/
import Tabletop.Template.Resolve

namespace Tabletop

/-! ## §1 Scopes that agree -/

/-- The scopes have the same value at every path that begins with a name. -/
def Scope.Agree (s t : Scope) : Prop := ∀ root rest, s (root :: rest) = t (root :: rest)

/-- The scopes have the same value at each of the paths. -/
def Scope.AgreeOn (s t : Scope) (paths : List Path) : Prop := ∀ p ∈ paths, s p = t p

variable {s t : Scope}

theorem Scope.Agree.path (h : s.Agree t) {p : Path} (hp : p ≠ []) : s p = t p := by
  cases p with
  | nil => exact absurd rfl hp
  | cons root rest => exact h root rest

theorem Scope.agreeOn_append {ps qs : List Path} :
    s.AgreeOn t (ps ++ qs) ↔ s.AgreeOn t ps ∧ s.AgreeOn t qs := List.forall_mem_append

/-! ## §2 The paths that are read -/

mutual

/-- The paths that an expression may ask its scope for. -/
def Expr.reads : Expr → List Path
  | .literal _ => []
  | .list items => allReads items
  | .variable name => [[name]]
  | .attribute base name =>
      match (Expr.attribute base name).staticPath? with
      | some path => [path]
      | none => base.reads
  | .index base position =>
      match (Expr.index base position).staticPath? with
      | some path => [path]
      | none => base.reads ++ position.reads
  | .filter target _ arguments => target.reads ++ allReads arguments
  | .not inner => inner.reads
  | .negate inner => inner.reads
  | .and left right => left.reads ++ right.reads
  | .or left right => left.reads ++ right.reads
  | .binary _ left right => left.reads ++ right.reads
  | .guarded value condition => value.reads ++ condition.reads
  | .choice value condition otherwise => value.reads ++ condition.reads ++ otherwise.reads

/-- The paths that expressions may ask for. -/
def allReads : List Expr → List Path
  | [] => []
  | e :: rest => e.reads ++ allReads rest

end

/-- A chain of accesses begins with a name. -/
theorem Expr.staticPath?_ne_nil {e : Expr} {p : Path} (h : e.staticPath? = some p) : p ≠ [] := by
  unfold staticPath? at h
  split at h
  case h_1 =>
    cases h
    exact List.cons_ne_nil _ _
  case h_2 | h_3 | h_4 =>
    obtain ⟨base, _, rfl⟩ := Option.map_eq_some_iff.mp h
    exact List.append_ne_nil_of_right_ne_nil base (List.cons_ne_nil _ _)
  case h_5 => cases h

mutual

/-- Every path that is read begins with a name. -/
theorem Expr.reads_ne_nil (e : Expr) : ∀ p ∈ e.reads, p ≠ [] := by
  match e with
  | .literal _ => nofun
  | .list items => exact allReads_ne_nil items
  | .variable name =>
    intro p hp
    rw [List.mem_singleton.mp hp]
    exact List.cons_ne_nil _ _
  | .attribute base name =>
    simp only [Expr.reads]
    split
    · exact fun p hp => List.mem_singleton.mp hp ▸ Expr.staticPath?_ne_nil ‹_›
    · exact Expr.reads_ne_nil base
  | .index base position =>
    simp only [Expr.reads]
    split
    · exact fun p hp => List.mem_singleton.mp hp ▸ Expr.staticPath?_ne_nil ‹_›
    · exact List.forall_mem_append.mpr ⟨Expr.reads_ne_nil base, Expr.reads_ne_nil position⟩
  | .filter target name arguments =>
    exact List.forall_mem_append.mpr ⟨Expr.reads_ne_nil target, allReads_ne_nil arguments⟩
  | .not inner => exact Expr.reads_ne_nil inner
  | .negate inner => exact Expr.reads_ne_nil inner
  | .and left right =>
    exact List.forall_mem_append.mpr ⟨Expr.reads_ne_nil left, Expr.reads_ne_nil right⟩
  | .or left right =>
    exact List.forall_mem_append.mpr ⟨Expr.reads_ne_nil left, Expr.reads_ne_nil right⟩
  | .binary op left right =>
    exact List.forall_mem_append.mpr ⟨Expr.reads_ne_nil left, Expr.reads_ne_nil right⟩
  | .guarded value condition =>
    exact List.forall_mem_append.mpr ⟨Expr.reads_ne_nil value, Expr.reads_ne_nil condition⟩
  | .choice value condition otherwise =>
    exact List.forall_mem_append.mpr ⟨List.forall_mem_append.mpr
      ⟨Expr.reads_ne_nil value, Expr.reads_ne_nil condition⟩, Expr.reads_ne_nil otherwise⟩

theorem allReads_ne_nil (es : List Expr) : ∀ p ∈ allReads es, p ≠ [] := by
  match es with
  | [] => nofun
  | e :: rest => exact List.forall_mem_append.mpr ⟨Expr.reads_ne_nil e, allReads_ne_nil rest⟩

end

/-! ## §3 Expressions -/

mutual

/-- Scopes that agree on what an expression reads give it the same value. -/
theorem Expr.eval_of_reads (e : Expr) (h : s.AgreeOn t e.reads) : e.eval s = e.eval t := by
  match e with
  | .literal l => simp only [Expr.eval]
  | .list items => simp only [Expr.eval, evalAll_of_reads items h]
  | .variable name => simp only [Expr.eval, h [name] (List.mem_singleton.mpr rfl)]
  | .attribute base name =>
    simp only [Expr.eval]
    simp only [Expr.reads] at h
    cases hp : (Expr.attribute base name).staticPath? with
    | some path =>
      rw [hp] at h
      simp only [h path (List.mem_singleton.mpr rfl)]
    | none =>
      rw [hp] at h
      simp only [Expr.eval_of_reads base h]
  | .index base position =>
    simp only [Expr.eval]
    simp only [Expr.reads] at h
    cases hp : (Expr.index base position).staticPath? with
    | some path =>
      rw [hp] at h
      simp only [h path (List.mem_singleton.mpr rfl)]
    | none =>
      rw [hp] at h
      obtain ⟨hb, hp⟩ := Scope.agreeOn_append.mp h
      simp only [Expr.eval_of_reads base hb, Expr.eval_of_reads position hp]
  | .filter target name arguments =>
    obtain ⟨ht, ha⟩ := Scope.agreeOn_append.mp h
    simp only [Expr.eval, Expr.eval_of_reads target ht, evalAll_of_reads arguments ha]
  | .not inner => simp only [Expr.eval, Expr.eval_of_reads inner h]
  | .negate inner => simp only [Expr.eval, Expr.eval_of_reads inner h]
  | .and left right =>
    obtain ⟨hl, hr⟩ := Scope.agreeOn_append.mp h
    simp only [Expr.eval, Expr.eval_of_reads left hl, Expr.eval_of_reads right hr]
  | .or left right =>
    obtain ⟨hl, hr⟩ := Scope.agreeOn_append.mp h
    simp only [Expr.eval, Expr.eval_of_reads left hl, Expr.eval_of_reads right hr]
  | .binary op left right =>
    obtain ⟨hl, hr⟩ := Scope.agreeOn_append.mp h
    simp only [Expr.eval, Expr.eval_of_reads left hl, Expr.eval_of_reads right hr]
  | .guarded value condition =>
    obtain ⟨hv, hc⟩ := Scope.agreeOn_append.mp h
    simp only [Expr.eval, Expr.eval_of_reads value hv, Expr.eval_of_reads condition hc]
  | .choice value condition otherwise =>
    obtain ⟨h, ho⟩ := Scope.agreeOn_append.mp h
    obtain ⟨hv, hc⟩ := Scope.agreeOn_append.mp h
    simp only [Expr.eval, Expr.eval_of_reads value hv, Expr.eval_of_reads condition hc,
      Expr.eval_of_reads otherwise ho]

theorem evalAll_of_reads (es : List Expr) (h : s.AgreeOn t (allReads es)) :
    evalAll s es = evalAll t es := by
  match es with
  | [] => simp only [evalAll]
  | e :: rest =>
    obtain ⟨he, hr⟩ := Scope.agreeOn_append.mp h
    simp only [evalAll, Expr.eval_of_reads e he, evalAll_of_reads rest hr]

end

/-! ## §4 Templates -/

/-- The paths that a segment may ask its scope for. -/
def Segment.reads : Segment → List Path
  | .text _ => []
  | .expression source =>
      match Expr.parse source with
      | .error _ => []
      | .ok e => e.reads

/-- The paths that a template may ask its scope for. -/
def templateReads (template : String) : List Path :=
  if hasMarkers template then ((segments template.toList).getD []).flatMap Segment.reads else []

theorem templateReads_ne_nil (template : String) : ∀ p ∈ templateReads template, p ≠ [] := by
  intro p hp
  unfold templateReads at hp
  split at hp
  · obtain ⟨part, _, hp⟩ := List.mem_flatMap.mp hp
    unfold Segment.reads at hp
    split at hp
    · exact absurd hp List.not_mem_nil
    · split at hp
      · exact absurd hp List.not_mem_nil
      · exact Expr.reads_ne_nil _ p hp
  · exact absurd hp List.not_mem_nil

theorem evalSource_of_reads {source : List Char}
    (h : s.AgreeOn t (Segment.expression source).reads) :
    evalSource s source = evalSource t source := by
  unfold evalSource
  rw [Segment.reads] at h
  cases parsed : Expr.parse source with
  | error fault => rfl
  | ok e =>
    rw [parsed] at h
    exact e.eval_of_reads h

theorem renderSegments_of_reads {parts : List Segment}
    (h : ∀ part ∈ parts, s.AgreeOn t part.reads) :
    renderSegments s parts = renderSegments t parts := by
  induction parts with
  | nil => rfl
  | cons part rest ih =>
    rw [List.forall_mem_cons] at h
    cases part with
    | text cs => simp only [renderSegments, ih h.2]
    | expression source => simp only [renderSegments, evalSource_of_reads h.1, ih h.2]

theorem evalSegments_of_reads {parts : List Segment}
    (h : ∀ part ∈ parts, s.AgreeOn t part.reads) :
    evalSegments s parts = evalSegments t parts := by
  unfold evalSegments
  split
  · rename_i source alone
    have there : Segment.expression source ∈ parts.filter fun p => !p.isBlank := by
      rw [alone]
      exact List.mem_singleton.mpr rfl
    exact evalSource_of_reads (h _ (List.mem_filter.mp there).1)
  · rw [renderSegments_of_reads h]

/-- Scopes that agree on what a template reads give it the same value or the same error. -/
theorem resolveTemplate_of_reads {template : String} (h : s.AgreeOn t (templateReads template)) :
    resolveTemplate template s = resolveTemplate template t := by
  unfold resolveTemplate
  unfold templateReads at h
  split
  · rw [if_pos ‹_›] at h
    cases cut : segments template.toList with
    | none => rfl
    | some parts =>
      rw [cut] at h
      have each : ∀ part ∈ parts, s.AgreeOn t part.reads :=
        fun part hp p hr => h p (List.mem_flatMap.mpr ⟨part, hp, hr⟩)
      simp only [evalSegments_of_reads each]
  · rfl

/-- Scopes that agree give a template the same value or the same error. -/
theorem resolveTemplate_of_agree (h : s.Agree t) (template : String) :
    resolveTemplate template s = resolveTemplate template t :=
  resolveTemplate_of_reads fun p hp => h.path (templateReads_ne_nil template p hp)

end Tabletop
