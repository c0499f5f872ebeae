/-
Tabletop.Proofs.Run.Replies — the replies that a run takes from its host.

A run takes replies from the front of the host's scripts, one after the
other. Where it succeeds, it depends on nothing of the scripts but these
replies: with any host whose scripts begin with them it gives the same, and
leaves what comes after them (`Run.Takes`). Bodies of steps that call no
flow are such runs.

  §1 Replies
  §2 Hosts that differ in what is left only
  §3 Runs that take replies
  §4 Requests
-/
import Tabletop.Proofs.Run.Parts

namespace Tabletop

/-! ## §1 Replies -/

namespace Script

variable {α : Type}

/-- The script with replies in front. -/
def prepend (r : List α) (s : Script α) : Script α := { s with replies := r ++ s.replies }

@[simp] theorem prepend_nil : prepend ([] : List α) = id := rfl

theorem prepend_append (r more : List α) : prepend (r ++ more) = prepend r ∘ prepend more :=
  funext fun s => congrArg (Script.mk · s.past) (List.append_assoc r more s.replies)

/-- The replies of a script before the one that is given ever after. -/
def given : Option (Script α) → List α
  | none => []
  | some s => s.replies

end Script

/-- Replies of a host, those of each kind in order. -/
@[ext]
structure Replies where
  dice : List DiceRoller := []
  names : List NameReply := []
  answers : List (Except String Value) := []
  llm : List LlmClient := []

namespace Replies

/-- Replies and then others. -/
def append (r more : Replies) : Replies where
  dice := r.dice ++ more.dice
  names := r.names ++ more.names
  answers := r.answers ++ more.answers
  llm := r.llm ++ more.llm

instance : Append Replies := ⟨append⟩

/-- The host that gives these replies first. What is not installed gives none. -/
def before (r : Replies) (h : Host) : Host where
  dice := h.dice.map (Script.prepend r.dice)
  names := h.names.map (Script.prepend r.names)
  answers := h.answers.map (Script.prepend r.answers)
  llm := h.llm.map (Script.prepend r.llm)

@[simp] theorem nil_append (r : Replies) : ({} : Replies) ++ r = r := rfl

@[simp] theorem append_nil (r : Replies) : r ++ ({} : Replies) = r := by
  ext1 <;> exact List.append_nil _

theorem append_assoc (r more most : Replies) : r ++ more ++ most = r ++ (more ++ most) := by
  ext1 <;> exact List.append_assoc _ _ _

@[simp] theorem nil_before (h : Host) : ({} : Replies).before h = h := by
  obtain ⟨dice, names, answers, llm⟩ := h
  simp [before]

theorem append_before (r more : Replies) (h : Host) :
    (r ++ more).before h = r.before (more.before h) := by
  change (r.append more).before h = _
  simp [append, before, Script.prepend_append]

/-- Every kind of which the second ones have none has none in the first ones. -/
structure Fewer (few more : Replies) : Prop where
  dice : more.dice = [] → few.dice = []
  names : more.names = [] → few.names = []
  answers : more.answers = [] → few.answers = []
  llm : more.llm = [] → few.llm = []

namespace Fewer

variable {few more few' more' : Replies}

theorem refl (r : Replies) : r.Fewer r := ⟨id, id, id, id⟩

theorem append (first : few.Fewer more) (behind : few'.Fewer more') :
    (few ++ few').Fewer (more ++ more') := by
  have both {α : Type} {xs ys xs' ys' : List α} (h : ys = [] → xs = []) (h' : ys' = [] → xs' = [])
      (none : ys ++ ys' = []) : xs ++ xs' = [] := by
    obtain ⟨hy, hy'⟩ := List.append_eq_nil_iff.mp none
    exact List.append_eq_nil_iff.mpr ⟨h hy, h' hy'⟩
  exact ⟨both first.dice behind.dice, both first.names behind.names,
    both first.answers behind.answers, both first.llm behind.llm⟩

/-- Replies that are left out. -/
theorem skip (r : Replies) (behind : few.Fewer more) : few.Fewer (r ++ more) where
  dice := fun none => behind.dice (List.append_eq_nil_iff.mp none).2
  names := fun none => behind.names (List.append_eq_nil_iff.mp none).2
  answers := fun none => behind.answers (List.append_eq_nil_iff.mp none).2
  llm := fun none => behind.llm (List.append_eq_nil_iff.mp none).2

end Fewer

end Replies

/-- What comes before the rest of a list. -/
def front {α : Type} (xs rest : List α) : List α := xs.take (xs.length - rest.length)

theorem front_append {α : Type} (xs rest : List α) : front (xs ++ rest) rest = xs := by
  simp [front]

/-- The replies that a host has given when others are left. -/
def Host.spent (h left : Host) : Replies where
  dice := front (Script.given h.dice) (Script.given left.dice)
  names := front (Script.given h.names) (Script.given left.names)
  answers := front (Script.given h.answers) (Script.given left.answers)
  llm := front (Script.given h.llm) (Script.given left.llm)

/-! ## §2 Hosts that differ in what is left only -/

/-- The scripts are both there or not, and end alike. The first one may have come to its end when
the second one has not, but not the other way round: from there on the replies are the same. -/
inductive Script.Alike {α : Type} : Option (Script α) → Option (Script α) → Prop
  | absent : Alike none none
  | present {replies left : List α} {past : α} (ended : left = [] → replies = []) :
      Alike (some ⟨replies, past⟩) (some ⟨left, past⟩)

namespace Script.Alike

variable {α : Type} {script left : Option (Script α)}

theorem refl (script : Option (Script α)) : Script.Alike script script := by
  cases script with
  | none => exact .absent
  | some s => exact .present id

theorem prepend {few more : List α} (alike : Script.Alike script left)
    (fewer : more = [] → few = []) :
    Script.Alike (script.map (Script.prepend few)) (left.map (Script.prepend more)) := by
  cases alike with
  | absent => exact .absent
  | present ended =>
    refine .present fun none => ?_
    obtain ⟨spent, gone⟩ := List.append_eq_nil_iff.mp none
    exact List.append_eq_nil_iff.mpr ⟨fewer spent, ended gone⟩

theorem eq_none (alike : Script.Alike script none) : script = none := by
  cases alike
  rfl

theorem exists_of_some {more : List α} {past : α}
    (alike : Script.Alike script (some ⟨more, past⟩)) :
    ∃ replies, script = some ⟨replies, past⟩ ∧ (more = [] → replies = []) := by
  cases alike with
  | present ended => exact ⟨_, rfl, ended⟩

/-- A script is what has been taken of it and what is left; so it is with another rest. -/
theorem front_before (r : List α) (alike : Script.Alike script left) :
    script.map (Script.prepend (front (Script.given (left.map (Script.prepend r)))
      (Script.given left))) = script.map (Script.prepend r) := by
  cases alike with
  | absent => rfl
  | present ended => exact congrArg (fun taken => some (Script.prepend taken _)) (front_append r _)

end Script.Alike

namespace Host

/-- The hosts have the same installed, and end alike. -/
structure Alike (h left : Host) : Prop where
  dice : Script.Alike h.dice left.dice
  names : Script.Alike h.names left.names
  answers : Script.Alike h.answers left.answers
  llm : Script.Alike h.llm left.llm

variable {left rest : Host}

theorem Alike.refl (h : Host) : h.Alike h := ⟨.refl _, .refl _, .refl _, .refl _⟩

/-- Replies before hosts that are alike, fewer of them before the first one. -/
theorem Alike.before {few more : Replies} (alike : rest.Alike left) (fewer : few.Fewer more) :
    (few.before rest).Alike (more.before left) :=
  ⟨alike.dice.prepend fewer.dice, alike.names.prepend fewer.names,
    alike.answers.prepend fewer.answers, alike.llm.prepend fewer.llm⟩

/-- The replies that a host has given are those that were before the ones that are left. -/
theorem spent_before (r : Replies) (alike : rest.Alike left) :
    ((r.before left).spent left).before rest = r.before rest := by
  unfold Replies.before spent
  simp only [alike.dice.front_before, alike.names.front_before, alike.answers.front_before,
    alike.llm.front_before]

end Host

/-! ## §3 Runs that take replies -/

/-- The steps and the sub-flows that a session has counted. -/
def Session.counts (s : Session) : Nat × Nat := (s.transitions, s.subFlows)

namespace Run

variable {α β : Type} {x : Run α}

/-- With the replies in front of what is left, whatever that is, the run gives the value and takes
these replies. -/
def Repeats (x : Run α) (a : α) (used : Replies) (left : Host) : Prop :=
  ∀ (rest : Host) (s : Session), rest.Alike left → s.host = used.before rest →
    ∃ t, x s = (.ok a, t) ∧ t.host = rest

/-- The run counts nothing and takes replies from the front of what the host has; if it succeeds, it
depends on these only. -/
structure Takes (x : Run α) : Prop where
  counts : ∀ {s outcome t}, x s = (outcome, t) → t.counts = s.counts
  takes : ∀ {s outcome t}, x s = (outcome, t) → ∃ used : Replies, s.host = used.before t.host ∧
    ∀ a, outcome = .ok a → Repeats x a used t.host

theorem Takes.bind {next : α → Run β} (hx : Takes x) (hnext : ∀ a, Takes (next a)) :
    Takes (x >>= next) where
  counts := by
    intro s outcome u ran
    rw [bind_apply] at ran
    cases first : x s with
    | mk reply t =>
      rw [first] at ran
      cases reply with
      | error stop =>
        cases ran
        exact hx.counts first
      | ok a => exact ((hnext a).counts ran).trans (hx.counts first)
  takes := by
    intro s outcome u ran
    rw [bind_apply] at ran
    cases first : x s with
    | mk reply t =>
      rw [first] at ran
      obtain ⟨used, start, repeats⟩ := hx.takes first
      cases reply with
      | error stop =>
        cases ran
        exact ⟨used, start, nofun⟩
      | ok a =>
        obtain ⟨more, between, repeatsNext⟩ := (hnext a).takes ran
        refine ⟨used ++ more, ?_, ?_⟩
        · rw [start, between, Replies.append_before]
        · intro b same rest s' alike start'
          rw [Replies.append_before] at start'
          have alike' : (more.before rest).Alike t.host := between ▸ alike.before (.refl more)
          obtain ⟨t', first', left⟩ := repeats a rfl _ s' alike' start'
          rw [bind_of_ok first']
          exact repeatsNext b same rest t' alike left

/-- A computation that only reports takes no replies. -/
theorem takes_traced (t : Traced α) : Takes (traced t) where
  counts := by
    intro s outcome u ran
    rw [traced_apply] at ran
    cases ran
    rfl
  takes := by
    intro s outcome u ran
    rw [traced_apply] at ran
    cases ran
    refine ⟨{}, (Replies.nil_before _).symm, ?_⟩
    intro a same rest s' _ start
    refine ⟨_, (traced_apply t s').trans (congrArg (·, _) same), ?_⟩
    exact start.trans (Replies.nil_before rest)

theorem sequenced_takes : Sequenced @Takes := ⟨takes_traced, Takes.bind⟩

/-! ## §4 Requests -/

/-- A run that leaves a host behind and reports is one that takes replies, if the host had them
before what is left and the run does the same where others are left. -/
theorem Takes.of_request (h : ∀ s, ∃ outcome left log, ∃ used : Replies,
    x s = (outcome, { s with host := left, log := log }) ∧ s.host = used.before left ∧
      ∀ a, outcome = .ok a → Repeats x a used left) : Takes x where
  counts := by
    intro s outcome t ran
    obtain ⟨_, _, _, _, same, _⟩ := h s
    cases same.symm.trans ran
    rfl
  takes := by
    intro s outcome t ran
    obtain ⟨_, _, _, used, same, start, repeats⟩ := h s
    cases same.symm.trans ran
    exact ⟨used, start, repeats⟩

/-- Where a host has its replies of one kind, and how it holds one of them. -/
structure Kept {α : Type} (script : Host → Option (Script α)) (keep : Script α → Host → Host)
    (one : α → Replies) : Prop where
  keep_self : ∀ {h r}, script h = some r → keep r h = h
  keep_keep : ∀ r r' h, keep r (keep r' h) = keep r h
  script_keep : ∀ r h, script (keep r h) = some r
  one_before : ∀ {h r} a, script h = some r → (one a).before h = keep (r.prepend [a]) h
  alike : ∀ {h left : Host}, h.Alike left → Script.Alike (script h) (script left)

/-- The next reply is in front of what is left. Once the replies are used up nothing is taken. -/
theorem takes_nextReply {script : Host → Option (Script α)} {keep : Script α → Host → Host}
    {one : α → Replies} (kept : Kept script keep one) (request : Event) :
    Takes (nextReply script keep request) := by
  refine .of_request fun s => ?_
  cases installed : script s.host with
  | none =>
    refine ⟨_, _, _, {}, nextReply_of_none installed, (Replies.nil_before _).symm, ?_⟩
    intro a same rest s' alike start
    cases same
    rw [Replies.nil_before] at start
    have absent : script s'.host = none := start ▸ (installed ▸ kept.alike alike).eq_none
    exact ⟨s', nextReply_of_none absent, start⟩
  | some replies =>
    obtain ⟨_ | ⟨reply, more⟩, past⟩ := replies
    · have gone : keep (Script.rest ⟨[], past⟩) s.host = s.host := kept.keep_self installed
      refine ⟨_, _, _, {}, nextReply_of_some installed, by rw [gone, Replies.nil_before], ?_⟩
      intro a same rest s' alike start
      cases same
      rw [Replies.nil_before] at start
      obtain ⟨others, there, ended⟩ := (installed ▸ gone ▸ kept.alike alike).exists_of_some
      cases ended rfl
      have still : script s'.host = some ⟨[], past⟩ := start ▸ there
      exact ⟨_, nextReply_of_some still, (kept.keep_self still).trans start⟩
    · have left : script (keep (Script.rest ⟨reply :: more, past⟩) s.host) = some ⟨more, past⟩ :=
        kept.script_keep _ _
      refine ⟨_, _, _, one reply, nextReply_of_some installed, ?_, ?_⟩
      · rw [kept.one_before reply left, kept.keep_keep]
        exact (kept.keep_self installed).symm
      · intro a same rest s' alike start
        cases same
        obtain ⟨others, there, _⟩ := (left ▸ kept.alike alike).exists_of_some
        rw [kept.one_before reply there] at start
        have next : script s'.host = some ⟨reply :: others, past⟩ :=
          start ▸ kept.script_keep _ _
        have given : nextReply script keep request s' = _ := nextReply_of_some next
        refine ⟨_, given, ?_⟩
        change keep ⟨others, past⟩ s'.host = rest
        rw [start, kept.keep_keep]
        exact kept.keep_self there

theorem kept_dice : Kept Host.dice (fun rest h => { h with dice := some rest })
    (fun reply => { dice := [reply] }) where
  keep_self := by
    rintro ⟨dice, names, answers, llm⟩ r rfl
    rfl
  keep_keep _ _ _ := rfl
  script_keep _ _ := rfl
  one_before := by
    rintro ⟨dice, names, answers, llm⟩ r a rfl
    simp [Replies.before]
  alike same := same.dice

theorem kept_names : Kept Host.names (fun rest h => { h with names := some rest })
    (fun reply => { names := [reply] }) where
  keep_self := by
    rintro ⟨dice, names, answers, llm⟩ r rfl
    rfl
  keep_keep _ _ _ := rfl
  script_keep _ _ := rfl
  one_before := by
    rintro ⟨dice, names, answers, llm⟩ r a rfl
    simp [Replies.before]
  alike same := same.names

theorem kept_answers : Kept Host.answers (fun rest h => { h with answers := some rest })
    (fun reply => { answers := [reply] }) where
  keep_self := by
    rintro ⟨dice, names, answers, llm⟩ r rfl
    rfl
  keep_keep _ _ _ := rfl
  script_keep _ _ := rfl
  one_before := by
    rintro ⟨dice, names, answers, llm⟩ r a rfl
    simp [Replies.before]
  alike same := same.answers

theorem kept_llm : Kept Host.llm (fun rest h => { h with llm := some rest })
    (fun reply => { llm := [reply] }) where
  keep_self := by
    rintro ⟨dice, names, answers, llm⟩ r rfl
    rfl
  keep_keep _ _ _ := rfl
  script_keep _ _ := rfl
  one_before := by
    rintro ⟨dice, names, answers, llm⟩ r a rfl
    simp [Replies.before]
  alike same := same.llm

theorem takes_roll (expression : String) : Takes (roll expression) := by
  refine (takes_nextReply kept_dice _).bind fun reply => ?_
  cases reply with
  | none => exact sequenced_takes.fail _
  | some roller =>
    dsimp only
    cases roller expression with
    | error message => exact sequenced_takes.fail _
    | ok roll => exact sequenced_takes.pure _

theorem takes_name (corpus segmenter : String) (maxLength : Nat) (algorithm : String) :
    Takes (name corpus segmenter maxLength algorithm) := by
  refine (takes_nextReply kept_names _).bind fun reply => ?_
  rcases reply with _ | found | message | message
  · exact sequenced_takes.fail _
  · exact (sequenced_takes.report _).bind fun _ => sequenced_takes.pure _
  · exact sequenced_takes.fail _
  · exact (sequenced_takes.report _).bind fun _ => sequenced_takes.fail _

theorem takes_ask (step : Step) (snapshot : Value) : Takes (ask step snapshot) := by
  refine (takes_nextReply kept_answers _).bind fun reply => ?_
  rcases reply with _ | message | v
  · exact sequenced_takes.fail _
  · exact sequenced_takes.fail _
  · exact sequenced_takes.pure _

/-- That there is a player to ask is no reply. -/
theorem takes_isAttended : Takes isAttended := by
  refine .of_request fun s => ⟨_, _, _, {}, rfl, (Replies.nil_before _).symm, ?_⟩
  intro a same rest s' alike start
  cases same
  have attended : s'.host.answers.isSome = s.host.answers.isSome := by
    rw [start, Replies.nil_before]
    have both := alike.answers
    generalize rest.answers = found at both
    generalize s.host.answers = there at both
    cases both <;> rfl
  exact ⟨s', congrArg (fun b => (Except.ok b, s')) attended, start.trans (Replies.nil_before rest)⟩

theorem takes_complete (text : String) (settings : LlmSettings) :
    Takes (complete text settings) :=
  (takes_nextReply kept_llm _).bind fun _ => sequenced_takes.pure _

theorem takes_prompt (id text : String) (settings : LlmSettings) :
    Takes (prompt id text settings) := by
  refine (takes_complete text settings).bind fun reply => ?_
  cases reply with
  | error message => exact sequenced_takes.fail _
  | ok response => exact sequenced_takes.pure response

/-- What the body of a step does on its own takes replies only. -/
theorem served_takes : Served @Takes where
  toSequenced := sequenced_takes
  roll := takes_roll
  name := takes_name
  ask := takes_ask
  isAttended := takes_isAttended
  prompt := takes_prompt

end Run

end Tabletop
