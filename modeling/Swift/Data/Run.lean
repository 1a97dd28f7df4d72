import Mathlib.Data.Option.Basic

/-!
# Runs of a transition function

A system whose state moves by events: `step s e` is the state after event `e` in state `s`, or
`none` when `e` cannot happen there (a process that is not at the right point, say). A run
applies a list of events in turn and fails as soon as one cannot happen. An interleaving of
several processes is such a list, each event naming the process that moves.

A property of states is an invariant when every event that can happen keeps it; it then holds
after every run. `invariant_of_forall` restricts the events to those an environment may send,
which is where assumptions about the environment go.

## Main results

* `invariant_of_forall` — an invariant holds after every run of allowed events
-/

namespace Swift

namespace Run

variable {σ ε : Type*} (step : σ → ε → Option σ)

/-- The state after the events, one after another; `none` if one of them cannot happen. -/
def run : σ → List ε → Option σ
  | s, [] => some s
  | s, e :: es => (step s e).bind fun s' => run s' es

@[simp] theorem run_nil (s : σ) : run step s [] = some s := rfl

theorem run_cons (s : σ) (e : ε) (es : List ε) :
    run step s (e :: es) = (step s e).bind fun s' => run step s' es := rfl

variable {step}

/-- A property that every event allowed by `ok` keeps holds after every run of such events. -/
theorem invariant_of_forall {ok : ε → Prop} {I : σ → Prop}
    (hstep : ∀ s e s', ok e → I s → step s e = some s' → I s') :
    ∀ {es : List ε} {s s' : σ}, (∀ e ∈ es, ok e) → I s → run step s es = some s' → I s'
  | [], s, s', _, hs, h => by
    cases h
    exact hs
  | e :: es, s, s', hok, hs, h => by
    rw [run_cons] at h
    cases he : step s e with
    | none => rw [he] at h; cases h
    | some t =>
      rw [he, Option.bind_some] at h
      exact invariant_of_forall hstep (fun e' he' => hok e' (List.mem_cons_of_mem e he'))
        (hstep s e t (hok e List.mem_cons_self) hs he) h

end Run

end Swift
