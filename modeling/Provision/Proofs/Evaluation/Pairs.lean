import Provision.Proofs.Evaluation.Expression
import Provision.Proofs.Evaluation.Bodies

/-!
# Pairs

A pair says what its expression comes to.  The answer, and the resources read on
the way, depend on what the view shows and on nothing else.
-/

namespace Provision

open Provision.Language (Node Entry)
open Recording
open Retry (Attempt Verdict)

/-- What an outcome says. -/
def ended {α : Type} : Except Interrupt α → Verdict α
  | .ok a => .yields a
  | .error (.deferred _) => .waits
  | .error (.failed _) => .fails

/-- What an expression says under a view. -/
def said (view : View) (node : Node) : Verdict Value :=
  ended ((evaluate view node).run []).1

/-- The resources that an expression reads under a view. -/
def readBy (view : View) (node : Node) : List Key :=
  ((evaluate view node).run []).2

section Saying

variable {view view' : View} {node node' : Node} {p p' : Value → Prop}

theorem Adds.mem_nil {added : Key → Prop} {after : List Key} (h : Adds added [] after) (key : Key) :
    added key ↔ key ∈ after := by
  rw [h key]
  exact ⟨Or.inr, fun hor => hor.resolve_left List.not_mem_nil⟩

theorem said_of_yields (h : Agrees p (evaluate view node) (evaluate view' node')) {value : Value}
    (hsaid : said view node = .yields value) :
    said view' node' = .yields value ∧ p value ∧
      ∀ key, key ∈ readBy view node ↔ key ∈ readBy view' node' := by
  have hlead := h [] []
  unfold said readBy at *
  generalize (evaluate view node).run [] = result at *
  generalize (evaluate view' node').run [] = result' at *
  cases hlead with
  | ok added hvalue hafter hafter' =>
    cases hsaid
    exact ⟨rfl, hvalue, fun key => (hafter.mem_nil key).symm.trans (hafter'.mem_nil key)⟩
  | failed => cases hsaid
  | waits => cases hsaid

theorem said_of_fails (h : Agrees p (evaluate view node) (evaluate view' node'))
    (hsaid : said view node = .fails) :
    said view' node' = .fails := by
  have hlead := h [] []
  unfold said at *
  generalize (evaluate view node).run [] = result at *
  generalize (evaluate view' node').run [] = result' at *
  cases hlead with
  | ok => cases hsaid
  | failed => rfl
  | waits => cases hsaid

theorem mem_readBy (h : Agrees p (evaluate view node) (evaluate view' node')) {key : Key}
    (hkey : key ∈ readBy view node) :
    key ∈ readBy view' node' := by
  have hlead := h [] []
  unfold readBy at *
  generalize (evaluate view node).run [] = result at *
  generalize (evaluate view' node').run [] = result' at *
  cases hlead with
  | ok added _ hafter hafter' => exact (hafter'.mem_nil key).1 ((hafter.mem_nil key).2 hkey)
  | failed added hafter hafter' => exact (hafter'.mem_nil key).1 ((hafter.mem_nil key).2 hkey)
  | waits added hafter hresult => exact hresult key ((hafter.mem_nil key).2 hkey)

theorem run_of_yields (h : Agrees p (evaluate view node) (evaluate view' node')) {value : Value}
    (hsaid : said view node = .yields value) (reads : List Key) :
    ∃ after, (evaluate view' node').run reads = (.ok value, after) ∧
      ∀ key, key ∈ after ↔ key ∈ reads ∨ key ∈ readBy view node := by
  have hlead := h [] reads
  unfold said readBy at *
  generalize (evaluate view node).run [] = result at *
  generalize (evaluate view' node').run reads = result' at *
  cases hlead with
  | ok added hvalue hafter hafter' =>
    cases hsaid
    refine ⟨_, rfl, fun key => ?_⟩
    rw [hafter' key, hafter.mem_nil key]
  | failed => cases hsaid
  | waits => cases hsaid

theorem run_of_fails (h : Agrees p (evaluate view node) (evaluate view' node'))
    (hsaid : said view node = .fails) (reads : List Key) :
    ∃ e after, (evaluate view' node').run reads = (.error (.failed e), after) := by
  have hlead := h [] reads
  unfold said at *
  generalize (evaluate view node).run [] = result at *
  generalize (evaluate view' node').run reads = result' at *
  cases hlead with
  | ok => cases hsaid
  | failed => exact ⟨_, _, rfl⟩
  | waits => cases hsaid

theorem run_of_waits (h : Agrees p (evaluate view node) (evaluate view' node'))
    (hback : Agrees p' (evaluate view' node') (evaluate view node))
    (hsaid : said view node = .waits) (reads : List Key) :
    ∃ deferrals after, (evaluate view' node').run reads = (.error (.deferred deferrals), after) ∧
      ∀ key, key ∈ after ↔ key ∈ reads ∨ key ∈ readBy view node := by
  have hgrows := evaluate_grows view' node' reads
  have hlead := h [] reads
  have hled := hback reads []
  unfold said readBy at *
  generalize (evaluate view node).run [] = result at *
  generalize (evaluate view' node').run reads = result' at *
  cases hled with
  | ok => cases hsaid
  | failed => cases hsaid
  | waits added hafter hresult =>
    refine ⟨_, _, rfl, fun key => ⟨?_, ?_⟩⟩
    · intro hkey
      rcases (hafter key).1 hkey with hkey | hkey
      · exact Or.inl hkey
      · exact Or.inr (hresult key hkey)
    · rintro (hkey | hkey)
      · exact hgrows key hkey
      · cases hlead with
        | waits own hown hincluded => exact hincluded key ((hown.mem_nil key).2 hkey)

end Saying

/-- Running a pair is evaluating its expression and binding its name. -/
theorem pair_run (e : Evaluator) (frame : Frame) (entry : Entry) (p : Progress) :
    (runStatement e (.pair entry) frame).run p =
      match (evaluate (p.view e.setting frame entry.span) entry.value).run p.reads with
      | (.ok value, reads) => (.ok (), { p with reads := reads, scope := p.scope.put entry.key value })
      | (.error i, reads) => (.error i, { p with reads := reads }) := by
  obtain ⟨key, node, span⟩ := entry
  have hread : (e.reading frame span fun view => evaluate view node).run p =
      (((evaluate (p.view e.setting frame span) node).run p.reads).1,
        { p with reads := ((evaluate (p.view e.setting frame span) node).run p.reads).2 }) := rfl
  rw [runStatement, run_bind, hread]
  generalize (evaluate (p.view e.setting frame span) node).run p.reads = result
  obtain ⟨outcome, reads⟩ := result
  cases outcome <;> rfl

end Provision
