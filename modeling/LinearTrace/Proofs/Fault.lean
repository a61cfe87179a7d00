import Mathlib.Data.List.Forall2
import LinearTrace.Peephole

/-!
# What work ensures

Work on a trace may abort on a malformed operation, and it stops with a
contradiction when the trace cannot complete.  Work ensures a condition from a
state when it ends in a state that satisfies the condition, aborts, or
contradicts with an excuse.  One rule for each way to build a computation lets
the condition be carried through a whole rule of the simplifier.
-/

namespace LinearTrace

open List Peephole Work

variable {σ α β : Type} {excuse : Prop}

variable {position : Nat} {other condition : Prop} {walk : Peephole} {op : Operation}
  {cause : Contradiction}

/-- The fault is not a contradiction, or the excuse holds. -/
def Fault.IsExcused (excuse : Prop) : Fault → Prop
  | .contradiction _ => excuse
  | _ => True

/-- A result without state satisfies a condition, unless the computation was stopped. -/
def EnsuresValue (excuse : Prop) (result : Except Fault α) (post : α → Prop) : Prop :=
  match result with
  | .ok value => post value
  | .error fault => fault.IsExcused excuse

/-- Work ends in a state that satisfies a condition together with its value, unless it was
stopped. -/
def Ensures (excuse : Prop) (work : Work σ α) (state : σ) (post : α → σ → Prop) : Prop :=
  match work state with
  | .ok value state => post value state
  | .error fault _ => fault.IsExcused excuse

namespace EnsuresValue

variable {result : Except Fault α} {post : α → Prop}

/-- Where every fault is excused, all that is left to show is about a result. -/
theorem of_ok
    (each : ∀ value, result = .ok value → post value) : EnsuresValue True result post := by
  cases result with
  | ok value => exact each value rfl
  | error fault => cases fault <;> exact trivial

theorem weaken {weaker : α → Prop} (ensured : EnsuresValue excuse result post)
    (implies : ∀ value, post value → weaker value) : EnsuresValue excuse result weaker := by
  cases result with
  | ok value => exact implies value ensured
  | error fault => exact ensured

theorem bind {first : Except Fault α} {second : α → Except Fault β} {middle : α → Prop}
    {post : β → Prop} (ensured : EnsuresValue excuse first middle)
    (next : ∀ value, middle value → EnsuresValue excuse (second value) post) :
    EnsuresValue excuse (first >>= second) post := by
  cases first with
  | ok value => exact next value ensured
  | error fault => exact ensured

theorem and_eq (ensured : EnsuresValue excuse result post) :
    EnsuresValue excuse result fun value => result = .ok value ∧ post value := by
  cases result with
  | ok value => exact ⟨rfl, ensured⟩
  | error fault => exact ensured

end EnsuresValue

theorem ensuresValue_arg {post : Value → Prop}
    (read : ∀ value, op.args[position]? = some value → post value) :
    EnsuresValue excuse (op.arg position) post := by
  unfold Operation.arg
  cases found : op.args[position]? with
  | none => exact trivial
  | some value => exact read value found

theorem EnsuresValue.bind_arg {second : Value → Except Fault β} {post : β → Prop}
    (next : ∀ value, op.args[position]? = some value → EnsuresValue excuse (second value) post) :
    EnsuresValue excuse (op.arg position >>= second) post :=
  (ensuresValue_arg fun _ found => found).bind next

theorem Work.get_bind (next : σ → Work σ α) (state : σ) : (get >>= next) state = next state state :=
  rfl

namespace Ensures

variable {work : Work σ α} {state ended : σ} {post : α → σ → Prop} {rest : Unit → Work σ α}
  {second : α → Work σ β}

theorem weaken {weaker : α → σ → Prop} (ensured : Ensures excuse work state post)
    (implies : ∀ value state, post value state → weaker value state) :
    Ensures excuse work state weaker := by
  unfold Ensures at *
  split at ensured
  · exact implies _ _ ensured
  · exact ensured

theorem excuse_by (ensured : Ensures excuse work state post) (implies : excuse → other) :
    Ensures other work state post := by
  unfold Ensures at *
  cases ended : work state with
  | ok value state =>
    rw [ended] at ensured
    exact ensured
  | error fault state =>
    rw [ended] at ensured
    cases fault with
    | contradiction cause => exact implies ensured
    | rejection cause => exact trivial
    | abort cause => exact trivial

/-- Work that runs like other work from a state ensures what that ensures. -/
theorem of_eq {other : Work σ α} {start : σ} (same : work state = other start)
    (ensured : Ensures excuse other start post) : Ensures excuse work state post := by
  unfold Ensures at *
  rw [same]
  exact ensured

theorem and {first second : α → σ → Prop}
    (left : Ensures other work state first) (right : Ensures excuse work state second) :
    Ensures excuse work state (fun value state => first value state ∧ second value state) := by
  unfold Ensures at *
  cases ended : work state with
  | ok value state =>
    rw [ended] at left right
    exact ⟨left, right⟩
  | error fault state =>
    rw [ended] at right
    exact right

/-- What is ensured without an excuse for every member of a family is ensured for all of
them at once; the excuse is that the family is empty. -/
theorem forall_of_each {ι : Type} {member : ι → Prop} {post : ι → α → σ → Prop}
    (each : ∀ index, member index → Ensures False work state (post index)) :
    Ensures (∀ index, ¬ member index) work state
      (fun value state => ∀ index, member index → post index value state) := by
  unfold Ensures at *
  cases ended : work state with
  | ok value state =>
    rw [ended] at each
    exact each
  | error fault state =>
    rw [ended] at each
    cases fault with
    | contradiction cause => exact each
    | rejection cause => exact trivial
    | abort cause => exact trivial

/-- A contradiction needs an excuse. -/
theorem contradict (excused : excuse) : Ensures excuse (contradict cause) state post :=
  excused

theorem reject_or [Decidable condition] {cause : Rejection}
    (ensured : ¬condition → Ensures excuse (rest ()) state post) :
    Ensures excuse (if condition then reject cause >>= rest else rest ()) state post := by
  split
  · exact trivial
  · exact ensured ‹_›

theorem or_reject [Decidable condition] {cause : Rejection}
    (ensured : condition → Ensures excuse (rest ()) state post) :
    Ensures excuse (if condition then rest () else reject cause >>= rest) state post := by
  split
  · exact ensured ‹_›
  · exact trivial

theorem bind {first : Work σ α} {middle : α → σ → Prop}
    {post : β → σ → Prop} (ensured : Ensures excuse first state middle)
    (next : ∀ value state, middle value state → Ensures excuse (second value) state post) :
    Ensures excuse (first >>= second) state post := by
  change match EStateM.bind first second state with
    | .ok value state => post value state
    | .error fault _ => fault.IsExcused excuse
  unfold EStateM.bind
  unfold Ensures at ensured
  cases ran : first state with
  | ok value state =>
    rw [ran] at ensured
    exact next value state ensured
  | error fault state =>
    rw [ran] at ensured
    exact ensured

theorem bind_get {second : σ → Work σ β} {post : β → σ → Prop}
    (ensured : Ensures excuse (second state) state post) :
    Ensures excuse (get >>= second) state post :=
  ensured

theorem bind_modifyGet {change : σ → α × σ} {post : β → σ → Prop}
    (ensured : Ensures excuse (second (change state).1) (change state).2 post) :
    Ensures excuse (modifyGet change >>= second) state post :=
  ensured

theorem forM {items : List α} {work : α → Work σ Unit} {invariant : σ → Prop}
    (holds : invariant state)
    (step : ∀ item ∈ items, ∀ state, invariant state →
      Ensures excuse (work item) state fun _ after => invariant after) :
    Ensures excuse (items.forM work) state fun _ after => invariant after := by
  induction items generalizing state with
  | nil => exact holds
  | cons item rest ih =>
    exact (step item mem_cons_self state holds).bind fun _ after kept =>
      ih kept fun later isLater => step later (mem_cons_of_mem item isLater)

theorem bind_lift {first : Except Fault α} {post : β → σ → Prop}
    (ensured : EnsuresValue excuse first fun value => Ensures excuse (second value) state post) :
    Ensures excuse ((liftM first : Work σ α) >>= second) state post := by
  cases first with
  | ok value => exact ensured
  | error fault => exact ensured

theorem bind_arg {second : Value → Work σ β} {post : β → σ → Prop}
    (next : ∀ value, op.args[position]? = some value → Ensures excuse (second value) state post) :
    Ensures excuse ((liftM (op.arg position) : Work σ Value) >>= second) state post :=
  bind_lift (ensuresValue_arg next)

theorem onFacts {work : FactsM α} {post : α → Peephole → Prop}
    (ensured : Ensures excuse work walk.facts
      fun value facts => post value { walk with facts := facts }) :
    Ensures excuse (onFacts work) walk post := by
  obtain ⟨facts, invariantCalls, stats⟩ := walk
  unfold Ensures onFacts at *
  dsimp only at *
  cases ran : work facts with
  | ok value facts =>
    rw [ran] at ensured
    exact ensured
  | error fault facts =>
    rw [ran] at ensured
    exact ensured

theorem bind_onFacts {work : FactsM α} {second : α → PeepholeM β} {middle : α → Facts → Prop}
    {post : β → Peephole → Prop} (ensured : Ensures excuse work walk.facts middle)
    (next : ∀ value facts, middle value facts →
      Ensures excuse (second value) { walk with facts := facts } post) :
    Ensures excuse (Peephole.onFacts work >>= second) walk post := by
  have first : Ensures excuse (Peephole.onFacts work) walk fun value after =>
      after = { walk with facts := after.facts } ∧ middle value after.facts :=
    Ensures.onFacts (ensured.weaken fun _ _ holds => ⟨rfl, holds⟩)
  refine first.bind fun value after holds => ?_
  rw [holds.1]
  exact next value after.facts holds.2

theorem bind_updateStats {update : PeepholeStats → PeepholeStats} {second : Unit → PeepholeM β}
    {post : β → Peephole → Prop}
    (ensured : Ensures excuse (second ()) { walk with stats := update walk.stats } post) :
    Ensures excuse (updateStats update >>= second) walk post :=
  ensured

theorem bind_currentFacts {second : Facts → PeepholeM β} {post : β → Peephole → Prop}
    (ensured : Ensures excuse (second walk.facts) walk post) :
    Ensures excuse (currentFacts >>= second) walk post :=
  ensured

theorem bind_currentFacts_arg {second : Facts → Value → PeepholeM β} {post : β → Peephole → Prop}
    (next : ∀ value, op.args[position]? = some value →
      Ensures excuse (second walk.facts value) walk post) :
    Ensures excuse (currentFacts >>= fun facts =>
      (liftM (op.arg position) : PeepholeM Value) >>= second facts) walk post :=
  bind_currentFacts (bind_arg next)

/-- Where every fault is excused, only work that ends well matters. -/
theorem of_ran (each : ∀ value ended, work state = .ok value ended → post value ended) :
    Ensures True work state post := by
  unfold Ensures
  split
  · exact each _ _ ‹_›
  next fault _ _ => cases fault <;> exact trivial

/-- Ensured work that ends well ends in a state with the condition. -/
theorem of_ok (ensured : Ensures excuse work state post) {value : α}
    (ran : work state = .ok value ended) : post value ended := by
  unfold Ensures at ensured
  rw [ran] at ensured
  exact ensured

/-- Ensured work that ends in a contradiction has its excuse. -/
theorem of_contradiction (ensured : Ensures excuse work state post)
    (ran : work state = .error (.contradiction cause) ended) : excuse := by
  unfold Ensures at ensured
  rw [ran] at ensured
  exact ensured

end Ensures

/-- The state that work leaves, whether it is stopped or not. -/
def Work.left (work : Work σ α) (state : σ) : σ :=
  match work state with
  | .ok _ state | .error _ state => state

/-- Work leaves a state that satisfies a condition, also where it is stopped. -/
def Leaves (work : Work σ α) (state : σ) (post : σ → Prop) : Prop :=
  post (work.left state)

namespace Leaves

variable {work : Work σ α} {second : α → Work σ β} {state ended : σ} {post : σ → Prop}

theorem of_ok (leaves : Leaves work state post) {value : α} (ran : work state = .ok value ended) :
    post ended := by
  rw [Leaves, left, ran] at leaves
  exact leaves

theorem of_eq {other : Work σ α} (same : work state = other state)
    (leaves : Leaves other state post) : Leaves work state post := by
  rw [Leaves, left, same]
  exact leaves

theorem bind_get {second : σ → Work σ β} (leaves : Leaves (second state) state post) :
    Leaves (get >>= second) state post :=
  leaves

theorem bind (first : Leaves work state post)
    (next : ∀ value state, post state → Leaves (second value) state post) :
    Leaves (work >>= second) state post := by
  change post (Work.left (EStateM.bind work second) state)
  unfold Leaves Work.left at first
  unfold Work.left EStateM.bind
  cases ran : work state with
  | ok value state =>
    rw [ran] at first
    exact next value state first
  | error fault state =>
    rw [ran] at first
    exact first

end Leaves

/-- Unless it is stopped, the work keeps an invariant, and its result satisfies a condition. -/
def Maintains (invariant : σ → Prop) (work : Work σ α) (post : α → Prop) : Prop :=
  ∀ state, invariant state → Ensures True work state fun result after =>
    invariant after ∧ post result

namespace Maintains

variable {invariant : σ → Prop}

variable {post : α → Prop} {first : Work σ α} {second : α → Work σ β} {items : List α}

theorem pure {result : α} (holds : post result) : Maintains invariant (Pure.pure result) post :=
  fun _ kept => ⟨kept, holds⟩

theorem bind {motive : α → Prop} {post : β → Prop} (maintains : Maintains invariant first motive)
    (next : ∀ result, motive result → Maintains invariant (second result) post) :
    Maintains invariant (first >>= second) post := by
  intro state kept
  exact (maintains state kept).bind fun result after holds =>
    next result holds.2 after holds.1

theorem bind_get {second : σ → Work σ β} {post : β → Prop}
    (next : ∀ state, invariant state → Maintains invariant (second state) post) :
    Maintains invariant (get >>= second) post :=
  fun state kept => Ensures.bind_get (next state kept state kept)

theorem lift {work : Except Fault α} (holds : ∀ result, work = .ok result → post result) :
    Maintains invariant (liftM work : Work σ α) post := by
  intro state kept
  cases work with
  | ok result => exact ⟨kept, holds result rfl⟩
  | error fault => cases fault <;> exact trivial

theorem bind_lift {first : Except Fault α} {post : β → Prop}
    (next : ∀ result, first = .ok result → Maintains invariant (second result) post) :
    Maintains invariant ((liftM first : Work σ α) >>= second) post :=
  (lift fun _ isResult => isResult).bind next

theorem ite {second : Work σ α} [Decidable condition]
    (left : condition → Maintains invariant first post)
    (right : ¬condition → Maintains invariant second post) :
    Maintains invariant (if condition then first else second) post := by
  split
  · exact left ‹_›
  · exact right ‹_›

theorem weaken {work : Work σ α} {weaker : α → Prop} (maintains : Maintains invariant work post)
    (implies : ∀ result, post result → weaker result) : Maintains invariant work weaker :=
  fun state kept => (maintains state kept).weaken fun result _ holds =>
    ⟨holds.1, implies result holds.2⟩

theorem mapM {work : α → Work σ β} {motive : α → β → Prop}
    (each : ∀ item ∈ items, Maintains invariant (work item) (motive item)) :
    Maintains invariant (items.mapM work) (List.Forall₂ motive items) := by
  induction items with
  | nil =>
    rw [mapM_nil]
    exact pure .nil
  | cons item rest ih =>
    rw [mapM_cons]
    refine (each item mem_cons_self).bind fun first isFirst => ?_
    exact (ih fun other member => each other (mem_cons_of_mem _ member)).bind
      fun others areOthers => pure (.cons isFirst areOthers)

theorem forM {work : α → Work σ PUnit}
    (each : ∀ item ∈ items, Maintains invariant (work item) fun _ => True) :
    Maintains invariant (items.forM work) fun _ => True := by
  induction items with
  | nil => exact pure trivial
  | cons item rest ih =>
    exact (each item mem_cons_self).bind fun _ _ =>
      ih fun other member => each other (mem_cons_of_mem _ member)

end Maintains

end LinearTrace
