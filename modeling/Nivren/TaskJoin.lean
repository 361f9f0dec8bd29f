import Nivren.Plans

/-! Joining tasks.

A task keeps the handle it is joined by until someone takes it. `std.tasks.all` first looks whether
every handle is there and then takes them one after another, so a task that is listed twice, or that
another thread joins in between, has none left when its turn comes.
-/

namespace Nivren.Tasks

variable {β : Type}

/-- What joining a task comes to; `none` if the task never ends. -/
abbrev TaskHandle (β : Type) := Option (Except String (Except NivError (Value β)))

abbrev Slots (β : Type) := ℕ → Option (TaskHandle β)

def Slots.without (slots : Slots β) (taken : List ℕ) : Slots β := fun id =>
  if id ∈ taken then none else slots id

def display (e : NivError) : String :=
  toString e.line ++ ":" ++ toString e.column ++ ": " ++ e.message

def joinTask : Except String (Except NivError (Value β)) → Value β
  | .ok (.ok value) => .ok value
  | .ok (.error e) => resultError (display e)
  | .error e => resultError e

def taskArray (name : String) (span : Span) : Value β → Result (List ℕ)
  | .array values => values.mapM fun
    | .handle .task id => .ok id
    | other => fail (name ++ " expects Task, found " ++ other.typeName) span
  | other => fail (name ++ " expects [Task], found " ++ other.typeName) span

/-- The loop of `task_all`; `others` are the handles that other threads take before each turn. -/
def joinAll (others : ℕ → List ℕ) (slots : Slots β) (values : List (Value β)) :
    List ℕ → Option (Result (Value β))
  | [] => some (.ok (.ok (.array values)))
  | id :: rest =>
    let slots := slots.without (others 0)
    match slots id with
    | none => some (.error .panic)
    | some none => none
    | some (some result) =>
      match joinTask result with
      | .ok value => joinAll (fun turn => others (turn + 1)) (slots.without [id])
          (values ++ [value]) rest
      | .err e => some (.ok (.err e))
      | _ => some (.error .panic)

def awaited (span : Span) : Result (Value β) :=
  fail "std.tasks.all received a task that was already awaited" span

def taskAll (others : ℕ → List ℕ) (slots : Slots β) (argument : Value β) (span : Span) :
    Option (Result (Value β)) :=
  match taskArray "std.tasks.all" span argument with
  | .error failure => some (.error failure)
  | .ok tasks =>
    if tasks.any fun id => (slots id).isNone then some (awaited span)
    else joinAll others slots [] tasks

abbrev Slots.Gives (slots : Slots β) (id : ℕ) (value : Value β) : Prop :=
  slots id = some (some (.ok (.ok value)))

def Slots.succeeds (slots : Slots β) (id : ℕ) : Bool :=
  match slots id with
  | some (some (.ok (.ok _))) => true
  | _ => false

/-- The results in the order of the tasks, or what became of one of them. -/
inductive Answers (slots : Slots β) (tasks : List ℕ) (span : Span) :
    Option (Result (Value β)) → Prop
  | values {values} : List.Forall₂ slots.Gives tasks values →
      Answers slots tasks span (some (.ok (.ok (.array values))))
  | failed {id result e} : id ∈ tasks → slots id = some (some result) → joinTask result = .err e →
      Answers slots tasks span (some (.ok (.err e)))
  | refused {id} : id ∈ tasks → slots id = none → Answers slots tasks span (some (awaited span))
  | waits {id} : id ∈ tasks → slots id = some none → Answers slots tasks span none

/-- The task of each turn the loop comes to has its handle: it is not among those `taken` before, it
stands nowhere before in the array and no other thread has taken it by then. -/
def Untaken (slots : Slots β) (others : ℕ → List ℕ) (taken tasks : List ℕ) : Prop :=
  ∀ turn ≤ (tasks.takeWhile slots.succeeds).length, ∀ id, tasks[turn]? = some id →
    id ∉ taken ++ tasks.take turn ∧ ∀ earlier ≤ turn, id ∉ others earlier

variable {slots : Slots β} {taken : List ℕ} {id : ℕ}

theorem without_without {more : List ℕ} :
    (slots.without taken).without more = slots.without (more ++ taken) := by
  funext id
  simp only [Slots.without, List.mem_append]
  split_ifs <;> simp_all

theorem not_answers_panic {tasks : List ℕ} {span : Span} :
    ¬ Answers slots tasks span (some (.error .panic)) := nofun

theorem taskArray_tasks {name : String} {span : Span} (tasks : List ℕ) :
    taskArray name span (.array (tasks.map (Value.handle .task)) : Value β) = .ok tasks := by
  rw [taskArray]
  induction tasks with
  | nil => rfl
  | cons id rest ih =>
    rw [List.map_cons, List.mapM_cons, ih]
    rfl

theorem untaken_cons {others : ℕ → List ℕ} {rest : List ℕ} :
    Untaken slots others taken (id :: rest) ↔ id ∉ others 0 ++ taken ∧ (slots.succeeds id = true →
      Untaken slots (fun turn => others (turn + 1)) (id :: others 0 ++ taken) rest) := by
  constructor
  · intro h
    have hid := h 0 (Nat.zero_le _) id rfl
    refine ⟨by simpa [and_comm] using hid, fun hs turn ht task htask => ?_⟩
    have hle : turn + 1 ≤ ((id :: rest).takeWhile slots.succeeds).length := by
      rw [List.takeWhile_cons_of_pos hs]
      exact Nat.succ_le_succ ht
    obtain ⟨hta, hot⟩ := h (turn + 1) hle task htask
    refine ⟨by simp_all, fun earlier he => hot (earlier + 1) (Nat.succ_le_succ he)⟩
  · rintro ⟨hid, h⟩ turn ht task htask
    cases turn with
    | zero =>
      cases htask
      simpa [and_comm] using hid
    | succ turn =>
      by_cases hs : slots.succeeds id = true
      · rw [List.takeWhile_cons_of_pos hs] at ht
        obtain ⟨hta, hot⟩ := h hs turn (Nat.le_of_succ_le_succ ht) task htask
        refine ⟨by simp_all, fun earlier he => ?_⟩
        cases earlier with
        | zero => simp_all
        | succ earlier => exact hot earlier (Nat.le_of_succ_le_succ he)
      · rw [List.takeWhile_cons_of_neg hs] at ht
        exact absurd ht (Nat.not_succ_le_zero _)

theorem joinAll_answers_iff {others : ℕ → List ℕ} {done tasks : List ℕ} {values : List (Value β)}
    {span : Span} (hd : List.Forall₂ slots.Gives done values) (hs : ∀ id ∈ tasks, slots id ≠ none) :
    Answers slots (done ++ tasks) span (joinAll others (slots.without taken) values tasks) ↔
      Untaken slots others taken tasks := by
  induction tasks generalizing others taken done values with
  | nil =>
    simpa [joinAll, Untaken] using Answers.values hd
  | cons id rest ih =>
    have hm : id ∈ done ++ id :: rest := by simp
    rw [joinAll, untaken_cons]
    simp only [without_without]
    by_cases ht : id ∈ others 0 ++ taken
    · simp [Slots.without, ht, not_answers_panic]
    · rw [Slots.without, if_neg ht]
      match hid : slots id with
      | none => exact absurd hid (hs id List.mem_cons_self)
      | some none =>
        exact iff_of_true (.waits hm hid) ⟨ht, fun h => by simp [Slots.succeeds, hid] at h⟩
      | some (some (.error e)) | some (some (.ok (.error e))) =>
        exact iff_of_true (.failed hm hid rfl) ⟨ht, fun h => by simp [Slots.succeeds, hid] at h⟩
      | some (some (.ok (.ok value))) =>
        have hr := @ih (id :: others 0 ++ taken) (fun turn => others (turn + 1)) (done ++ [id])
          (values ++ [value]) (List.rel_append hd (.cons hid .nil))
          fun id h => hs id (List.mem_cons_of_mem _ h)
        rw [List.append_assoc] at hr
        have hsu : slots.succeeds id = true := by rw [Slots.succeeds, hid]
        exact hr.trans ⟨fun h => ⟨ht, fun _ => h⟩, fun h => h.2 hsu⟩

end Nivren.Tasks
