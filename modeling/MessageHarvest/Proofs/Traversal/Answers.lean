import MessageHarvest.Traversal

/-!
# The answers of a complete pass

What a visitor would answer to each callback of a complete pass depends on the visitor alone, not on
the policy. The policy only decides how many of these answers are asked for.

* `Visitor.answers` lists the answers to a list of callbacks, `Visitor.after` is the visitor that
  has given them.
* `Tree.entered_callbacks`: a complete pass enters the nodes in document order, each once.
* `Pass.foldl_skip`: under `FaultPolicy.skip` all answers are asked for, and the faults are kept.
* `Pass.foldl_abort_of_fault`: under `FaultPolicy.abort` the answers are asked for up to the first
  fault, which halts the pass.
* `Traverser.passInTurn_skip`, `Traverser.passInTurn_abort_of_fault`: the same for all visitors in
  turn.
-/

namespace MessageHarvest

/-- A callback and the fault with which it was answered, if it was. -/
structure Answer where
  callback : Callback
  fault? : Option CallFault
deriving DecidableEq, Repr

namespace Visitor

variable {σ : Type} [Visitor σ] (registry : Registry)

/-- The visitor after it has answered the callbacks one after the other. -/
def after (v : σ) : List Callback → σ
  | [] => v
  | c :: cs => after (answer registry c v).2 cs

/-- The answers of the visitor to the callbacks, one after the other. -/
def answers (v : σ) : List Callback → List Answer
  | [] => []
  | c :: cs => ⟨c, (answer registry c v).1⟩ :: answers (answer registry c v).2 cs

/-- The faults among the answers, in their order. -/
def reported (v : σ) (cs : List Callback) : List CallFault :=
  (answers registry v cs).filterMap Answer.fault?

theorem answers_take (v : σ) (cs : List Callback) (n : Nat) :
    answers registry v (cs.take n) = (answers registry v cs).take n := by
  induction cs generalizing v n with
  | nil => simp [answers]
  | cons c cs ih => cases n <;> simp [answers, ih]

theorem reported_eq_nil_iff {v : σ} {cs : List Callback} :
    reported registry v cs = [] ↔ ∀ a ∈ answers registry v cs, a.fault? = none := by
  simp [reported, List.filterMap_eq_nil_iff]

theorem head?_reported {v : σ} {cs : List Callback} {before later : List Answer} {a : Answer}
    (hv : answers registry v cs = before ++ a :: later) (hbefore : ∀ b ∈ before, b.fault? = none)
    {fault : CallFault} (ha : a.fault? = some fault) :
    (reported registry v cs).head? = some fault := by
  have hnone : before.filterMap Answer.fault? = [] := List.filterMap_eq_nil_iff.mpr hbefore
  have hcons : reported registry v cs = fault :: later.filterMap Answer.fault? := by
    simp [reported, hv, hnone, ha]
  rw [hcons, List.head?_cons]

/-- The first visitor with a fault to report reports the first fault of all. -/
theorem head?_flatMap_reported {us ws : List σ} {v : σ} {cs : List Callback} {fault : CallFault}
    (hus : ∀ u ∈ us, reported registry u cs = [])
    (hv : (reported registry v cs).head? = some fault) :
    ((us ++ v :: ws).flatMap (reported registry · cs)).head? = some fault := by
  have hpassed : us.flatMap (reported registry · cs) = [] := List.flatMap_eq_nil_iff.mpr hus
  rw [List.flatMap_append, hpassed, List.nil_append, List.flatMap_cons, List.head?_append, hv,
    Option.some_or]

end Visitor

/-! ## One pass -/

/-- The number of nodes that are entered in the course of the callbacks. -/
def entered (cs : List Callback) : Nat :=
  cs.countP (·.moment = .enter)

namespace Tree

mutual

/-- A complete pass enters the nodes of the tree in document order, each once. -/
theorem entered_callbacks : (t : Tree) →
    (t.callbacks.filter (·.moment = .enter)).map Callback.node = t.nodes
  | call name arguments line => by
    simp [callbacks, nodes, entered_callbacksOfAll arguments]
  | literal value line => by simp [callbacks, nodes]
  | other name children line => by
    simp [callbacks, nodes, entered_callbacksOfAll children]

theorem entered_callbacksOfAll : (ts : List Tree) →
    ((callbacksOfAll ts).filter (·.moment = .enter)).map Callback.node = nodesOfAll ts
  | [] => rfl
  | t :: ts => by
    simp [callbacksOfAll, nodesOfAll, entered_callbacks t, entered_callbacksOfAll ts]

end

theorem entered_length (t : Tree) : entered t.callbacks = t.nodes.length := by
  rw [entered, List.countP_eq_length_filter, ← entered_callbacks t, List.length_map]

end Tree

namespace Pass

open Visitor

variable {σ : Type} [Visitor σ] {registry : Registry}

/-- A halted pass stays as it is. -/
theorem foldl_of_halt {policy : FaultPolicy} {p : Pass σ} {fault : CallFault}
    (h : p.halt = some fault) (cs : List Callback) :
    cs.foldl (step policy registry) p = p := by
  induction cs with
  | nil => rfl
  | cons c cs ih => simpa [step, h] using ih

theorem foldl_skip {p : Pass σ} (h : p.halt = none) (cs : List Callback) :
    cs.foldl (step .skip registry) p =
      { visitor := after registry p.visitor cs
        visited := p.visited + entered cs
        faults := p.faults ++ (reported registry p.visitor cs).toArray
        halt := none } := by
  induction cs generalizing p with
  | nil => cases p; simp_all [after, reported, answers, entered]
  | cons c cs ih =>
    rw [List.foldl_cons]
    cases hf : (answer registry c p.visitor).1 with
    | none =>
      rw [ih (by simp [step, h, hf])]
      by_cases hc : c.moment = .enter
      · simp [step, h, hf, hc, after, reported, answers, entered]
        omega
      · simp [step, h, hf, hc, after, reported, answers, entered]
    | some fault =>
      rw [ih (by simp [step, h, hf])]
      by_cases hc : c.moment = .enter
      · simp [step, h, hf, hc, after, reported, answers, entered]
        omega
      · simp [step, h, hf, hc, after, reported, answers, entered]

/-- A pass in which nothing is wrong ends in the same way under both policies. -/
theorem foldl_abort_of_no_fault {p : Pass σ} (h : p.halt = none) {cs : List Callback}
    (hcs : reported registry p.visitor cs = []) :
    cs.foldl (step .abort registry) p = cs.foldl (step .skip registry) p := by
  induction cs generalizing p with
  | nil => rfl
  | cons c cs ih =>
    obtain ⟨hc, hrest⟩ : (answer registry c p.visitor).1 = none ∧
        reported registry (answer registry c p.visitor).2 cs = [] := by
      cases hf : (answer registry c p.visitor).1 <;> simp_all [reported, answers]
    have hstep : step .abort registry p c = step .skip registry p c := by simp [step, h, hc]
    rw [List.foldl_cons, List.foldl_cons, hstep]
    exact ih (by simp [step, h, hc]) (by simpa [step, h, hc] using hrest)

/-- The first fault halts the pass: what comes after it is not asked for. -/
theorem foldl_abort_of_fault {p : Pass σ} (h : p.halt = none) {cs : List Callback}
    {before later : List Answer} {a : Answer} {fault : CallFault}
    (hcs : answers registry p.visitor cs = before ++ a :: later)
    (hbefore : ∀ b ∈ before, b.fault? = none) (ha : a.fault? = some fault) :
    cs.foldl (step .abort registry) p =
      { visitor := after registry p.visitor (cs.take (before.length + 1))
        visited := p.visited + entered (cs.take (before.length + 1))
        faults := p.faults
        halt := some fault } := by
  induction before generalizing p cs with
  | nil =>
    cases cs with
    | nil => simp [answers] at hcs
    | cons c cs =>
      obtain ⟨rfl, -⟩ : (⟨c, (answer registry c p.visitor).1⟩ : Answer) = a ∧ _ := by
        simpa [answers] using hcs
      have hf : (answer registry c p.visitor).1 = some fault := ha
      have hhalt : (step .abort registry p c).halt = some fault := by simp [step, h, hf]
      rw [List.foldl_cons, foldl_of_halt hhalt]
      by_cases hc : c.moment = .enter <;> simp [step, h, hf, hc, after, entered]
  | cons b before ih =>
    cases cs with
    | nil => simp [answers] at hcs
    | cons c cs =>
      obtain ⟨rfl, hrest⟩ : (⟨c, (answer registry c p.visitor).1⟩ : Answer) = b ∧
          answers registry (answer registry c p.visitor).2 cs = before ++ a :: later := by
        simpa [answers] using hcs
      have hf : (answer registry c p.visitor).1 = none := hbefore _ List.mem_cons_self
      rw [List.foldl_cons, ih (by simp [step, h, hf]) (by simpa [step, h, hf] using hrest)
        (fun b hb => hbefore b (List.mem_cons_of_mem _ hb))]
      by_cases hc : c.moment = .enter
      · simp [step, h, hf, hc, after, entered]
        omega
      · simp [step, h, hf, hc, after, entered]

end Pass

/-! ## All passes in turn -/

namespace Traverser

open Visitor

variable {σ : Type} [Visitor σ] {registry : Registry} {root : Tree}

theorem passInTurn_skip (vs : List σ) (report : TraversalReport) :
    passInTurn .skip registry root vs report =
      (vs.map (after registry · root.callbacks),
        .ok { visited := report.visited + vs.length * entered root.callbacks
              faults := report.faults ++
                (vs.flatMap (reported registry · root.callbacks)).toArray }) := by
  induction vs generalizing report with
  | nil => simp [passInTurn]
  | cons v vs ih =>
    simp only [passInTurn, Tree.pass_eq_foldl, Pass.foldl_skip, ih]
    simp [Nat.add_mul]
    omega

/-- Where no visitor finds a fault, the policies do not differ. -/
theorem passInTurn_abort_of_no_fault {vs : List σ}
    (h : ∀ v ∈ vs, reported registry v root.callbacks = []) (report : TraversalReport) :
    passInTurn .abort registry root vs report = passInTurn .skip registry root vs report := by
  induction vs generalizing report with
  | nil => rfl
  | cons v vs ih =>
    have hv : reported registry v root.callbacks = [] := h v List.mem_cons_self
    simp only [passInTurn, Tree.pass_eq_foldl]
    rw [Pass.foldl_abort_of_no_fault rfl hv, Pass.foldl_skip rfl]
    simp only [ih (fun w hw => h w (List.mem_cons_of_mem _ hw))]

/-- The visitors before the first one with a fault complete their passes, that one answers up to
its fault, and the others are left alone. -/
theorem passInTurn_abort_of_fault {us ws : List σ} {v : σ} {before later : List Answer}
    {a : Answer} {fault : CallFault}
    (hus : ∀ u ∈ us, reported registry u root.callbacks = [])
    (hv : answers registry v root.callbacks = before ++ a :: later)
    (hbefore : ∀ b ∈ before, b.fault? = none) (ha : a.fault? = some fault)
    (report : TraversalReport) :
    passInTurn .abort registry root (us ++ v :: ws) report =
      (us.map (after registry · root.callbacks) ++
        after registry v (root.callbacks.take (before.length + 1)) :: ws, .error fault) := by
  induction us generalizing report with
  | nil =>
    simp only [List.nil_append, passInTurn, Tree.pass_eq_foldl]
    rw [Pass.foldl_abort_of_fault rfl hv hbefore ha]
    simp
  | cons u us ih =>
    have hu : reported registry u root.callbacks = [] := hus u List.mem_cons_self
    simp only [List.cons_append, passInTurn, Tree.pass_eq_foldl]
    rw [Pass.foldl_abort_of_no_fault rfl hu, Pass.foldl_skip rfl]
    simp only [ih (fun w hw => hus w (List.mem_cons_of_mem _ hw))]
    simp

end Traverser

end MessageHarvest
