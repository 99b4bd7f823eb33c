import SourceWindow.Proofs.Truncation.Report
import SourceWindow.Renderer

/-!
Calls of a renderer, one after the other. What a call gives depends on the call and on what the
scanner answers, and the renderer hands on nothing but the scanner. Without a limit, or without a
scanner, nothing is scanned; otherwise each call scans its text once.
-/

set_option autoImplicit false

namespace SourceWindow

namespace LiteralSource

variable {σ : Type}

def after (source : LiteralSource σ) (state : σ) (texts : List Text) : σ :=
  texts.foldl (fun state t => (source.scan state t).2) state

/-- A scanner that notes the texts it is asked about. -/
def noting (source : LiteralSource σ) : LiteralSource (σ × List Text) where
  scan := fun (state, asked) t =>
    ((source.scan state t).1, ((source.scan state t).2, asked ++ [t]))

theorem after_noting (source : LiteralSource σ) (state : σ) (asked texts : List Text) :
    source.noting.after (state, asked) texts = (source.after state texts, asked ++ texts) := by
  induction texts generalizing state asked with
  | nil => simp [after]
  | cons t texts ih =>
    have h := ih (source.scan state t).2 (asked ++ [t])
    simpa [after, noting] using h

end LiteralSource

namespace Renderer

inductive Call where
  | truncate (t : Text)
  | render (t : Text) (first last : Int)
  deriving DecidableEq, Repr

inductive Answer where
  | truncated (result : Except RenderError Truncation)
  | rendered (output : Text)
  deriving Repr

namespace Call

def text : Call → Text
  | .truncate t => t
  | .render t _ _ => t

def answer (report : Truncation) : Call → Answer
  | .truncate _ => .truncated (.ok report)
  | .render _ first last => .rendered (report.text.window first last)

def refusal (e : RenderError) : Call → Answer
  | .truncate _ => .truncated (.error e)
  | .render t first last => .rendered (e.userMessage ++ ['\n'] ++ t.window first last)

def answerTo (limit : TruncationLimit) (scan : Except ParseError (List LiteralSpan)) (c : Call) :
    Answer :=
  match scan with
  | .ok spans => c.answer (truncateLiterals c.text spans limit)
  | .error cause => c.refusal (.unparsed cause)

end Call

variable {σ : Type}

def call (r : Renderer σ) : Call → Answer × Renderer σ
  | .truncate t => ((.truncated (r.truncate t).1), (r.truncate t).2)
  | .render t first last => (.rendered (r.render t first last).1, (r.render t first last).2)

def run (r : Renderer σ) : List Call → List Answer × Renderer σ
  | [] => ([], r)
  | c :: calls =>
    let (answer, r) := r.call c
    let (answers, r) := r.run calls
    (answer :: answers, r)

theorem run_cons {r r' : Renderer σ} {c : Call} {answer : Answer} (h : r.call c = (answer, r'))
    (calls : List Call) : r.run (c :: calls) = (answer :: (r'.run calls).1, (r'.run calls).2) := by
  rw [run, h]

section
variable {r : Renderer σ} {source : LiteralSource σ} {state : σ}

theorem call_eq (r : Renderer σ) (c : Call) :
    r.call c = (match (r.truncate c.text).1 with
      | .ok report => c.answer report
      | .error e => c.refusal e, (r.truncate c.text).2) := by
  cases c with
  | truncate t =>
    simp only [call, Call.text]
    cases (r.truncate t).1 <;> rfl
  | render t first last =>
    simp only [call, render, Call.text]
    obtain ⟨result, r'⟩ := r.truncate t
    cases result <;> rfl

theorem call_of_disabled (hlimit : r.limit = .disabled) (c : Call) :
    r.call c = (c.answer ⟨c.text, [], 0⟩, r) := by
  rw [call_eq, truncate, if_pos hlimit, hlimit]
  rfl

theorem call_of_unavailable {reason : Text} (hlimit : r.limit ≠ .disabled)
    (h : r.capability = .unavailable reason) (c : Call) :
    r.call c = (c.refusal (.unavailable reason), r) := by
  rw [call_eq, truncate, if_neg hlimit, h]

theorem call_of_available (hlimit : r.limit ≠ .disabled)
    (h : r.capability = .available source state) (c : Call) :
    r.call c = (c.answerTo r.limit (source.scan state c.text).1,
      ⟨.available source (source.scan state c.text).2, r.limit⟩) := by
  rw [call_eq, truncate, if_neg hlimit, h]
  cases hscan : (source.scan state c.text).1 <;> simp only [hscan, Call.answerTo]

theorem run_of_unchanged {answer : Call → Answer} (h : ∀ c, r.call c = (answer c, r))
    (calls : List Call) : r.run calls = (calls.map answer, r) := by
  induction calls with
  | nil => rfl
  | cons c calls ih => rw [run_cons (h c), ih, List.map_cons]

end

end Renderer

namespace LiteralSource
open Renderer

variable {σ : Type} {limit : TruncationLimit}

/-- The answers to calls in order, from what the scanner finds in each text. -/
def answers (source : LiteralSource σ) (limit : TruncationLimit) : σ → List Call → List Answer
  | _, [] => []
  | state, c :: calls => c.answerTo limit (source.scan state c.text).1 ::
      source.answers limit (source.scan state c.text).2 calls

theorem length_answers (source : LiteralSource σ) (state : σ) (calls : List Call) :
    (source.answers limit state calls).length = calls.length := by
  induction calls generalizing state with
  | nil => rfl
  | cons c calls ih => simp [answers, ih]

theorem getElem?_answers (source : LiteralSource σ) (state : σ) (calls : List Call) (i : Nat) :
    (source.answers limit state calls)[i]? = calls[i]?.map fun c =>
      c.answerTo limit (source.scan (source.after state ((calls.take i).map (·.text))) c.text).1 := by
  induction calls generalizing state i with
  | nil => rfl
  | cons c calls ih =>
    cases i with
    | zero => rfl
    | succ i => simpa [answers, after] using ih (source.scan state c.text).2 i

theorem answers_noting (source : LiteralSource σ) (state : σ) (asked : List Text)
    (calls : List Call) :
    source.noting.answers limit (state, asked) calls = source.answers limit state calls := by
  induction calls generalizing state asked with
  | nil => rfl
  | cons c calls ih => rw [answers, answers, ← ih]; rfl

end LiteralSource

namespace Renderer

variable {σ : Type}

theorem run_of_available {limit : TruncationLimit} (hlimit : limit ≠ .disabled)
    (source : LiteralSource σ) (state : σ) (calls : List Call) :
    (⟨.available source state, limit⟩ : Renderer σ).run calls =
      (source.answers limit state calls,
        ⟨.available source (source.after state (calls.map (·.text))), limit⟩) := by
  induction calls generalizing state with
  | nil => rfl
  | cons c calls ih =>
    rw [run_cons (call_of_available hlimit rfl c), ih]
    rfl

/-- The answer to a call after a scan of its text: from the literals that were found, or with the
reason why there are none. -/
def Call.AnsweredBy (limit : TruncationLimit) (scan : Except ParseError (List LiteralSpan))
    (c : Call) (answer : Answer) : Prop :=
  match scan with
  | .ok spans => ∃ report, truncate? c.text spans limit = some report ∧ answer = c.answer report
  | .error cause => answer = c.refusal (.unparsed cause)

theorem Call.answeredBy_answerTo (limit : TruncationLimit)
    (scan : Except ParseError (List LiteralSpan)) (c : Call) :
    c.AnsweredBy limit scan (c.answerTo limit scan) := by
  cases scan with
  | error cause => rfl
  | ok spans =>
    obtain ⟨text, htext, -⟩ := exists_truncation c.text spans limit
    exact ⟨_, htext, by rw [answerTo, truncateLiterals, htext]; rfl⟩

/-- A renderer remembers nothing of its calls. With truncation disabled, or without a scanner, it
stays as it is, and so does its scanner. Otherwise each call is answered from one scan of its text,
by the scanner as the scans before left it, whether these failed or not; and a scanner that notes
the texts it is asked about has noted the texts of the calls in order. -/
theorem run_memoryless (r : Renderer σ) (calls : List Call) :
    (r.limit = .disabled → r.run calls = (calls.map fun c => c.answer ⟨c.text, [], 0⟩, r)) ∧
    (r.limit ≠ .disabled → ∀ reason, r.capability = .unavailable reason →
      r.run calls = (calls.map (·.refusal (.unavailable reason)), r)) ∧
    (r.limit ≠ .disabled → ∀ source state, r.capability = .available source state →
      (r.run calls).2 = ⟨.available source (source.after state (calls.map (·.text))), r.limit⟩ ∧
      (r.run calls).1.length = calls.length ∧
      (∀ (i : Nat) (c : Call), calls[i]? = some c → ∃ answer, (r.run calls).1[i]? = some answer ∧
        c.AnsweredBy r.limit
          (source.scan (source.after state ((calls.take i).map (·.text))) c.text).1 answer) ∧
      ∀ asked, (⟨.available source.noting (state, asked), r.limit⟩ : Renderer _).run calls =
        ((r.run calls).1, ⟨.available source.noting
          (source.after state (calls.map (·.text)), asked ++ calls.map (·.text)), r.limit⟩)) := by
  refine ⟨fun hlimit => run_of_unchanged (call_of_disabled hlimit) calls,
    fun hlimit reason h => run_of_unchanged (call_of_unavailable hlimit h) calls,
    fun hlimit source state h => ?_⟩
  have hrun : r.run calls = (source.answers r.limit state calls,
      ⟨.available source (source.after state (calls.map (·.text))), r.limit⟩) := by
    rw [← run_of_available hlimit, ← h]
  rw [hrun]
  refine ⟨rfl, source.length_answers state calls, fun i c hc => ?_, fun asked => ?_⟩
  · refine ⟨_, ?_, c.answeredBy_answerTo r.limit _⟩
    rw [source.getElem?_answers, hc, Option.map_some]
  · rw [run_of_available hlimit, source.answers_noting, source.after_noting]

theorem run_memoryless_failed_first :
    let t := Text.ofString "<aaa>"
    let source : LiteralSource Nat :=
      ⟨fun n _ => (if n = 0 then .error (.noTree .json) else .ok [⟨0, 5, .string⟩], n + 1)⟩
    let calls : List Call := [.render t 1 1, .truncate t]
    let found (limit : TruncationLimit) : Renderer Nat := ⟨.available source 0, limit⟩
    let missing : Renderer Nat := ⟨.unavailable ['-'], .maxBytes 3⟩
    ((found (.maxBytes 3)).run calls).2 = ⟨.available source 2, .maxBytes 3⟩ ∧
      ((found (.maxBytes 3)).run calls).1[0]? = some (.rendered (Text.ofString
        "⚠️ AST Warning: json parser produced no syntax tree\n1 | <aaa>")) ∧
      (∃ report, truncate? t [⟨0, 5, .string⟩] (.maxBytes 3) = some report ∧
        ((found (.maxBytes 3)).run calls).1[1]? = some (.truncated (.ok report))) ∧
      ((found .disabled).run calls).2 = found .disabled ∧ (missing.run calls).2 = missing := by
  intro t source calls found missing
  have hdisabled := (run_memoryless (found .disabled) calls).1 rfl
  have hmissing := (run_memoryless missing calls).2.1 (by decide) ['-'] rfl
  obtain ⟨hstate, -, hanswer, -⟩ :=
    (run_memoryless (found (.maxBytes 3)) calls).2.2 (by decide) source 0 rfl
  obtain ⟨first, hfirst, hrefused⟩ := hanswer 0 (.render t 1 1) rfl
  obtain ⟨second, hsecond, report, hreport, hanswered⟩ := hanswer 1 (.truncate t) rfl
  have hmessage : (Call.render t 1 1).refusal (.unparsed (.noTree .json)) = .rendered
      (Text.ofString "⚠️ AST Warning: json parser produced no syntax tree\n1 | <aaa>") :=
    congrArg Answer.rendered (by decide +kernel)
  refine ⟨hstate, ?_, ⟨report, hreport, ?_⟩, by rw [hdisabled], by rw [hmissing]⟩
  · rw [hfirst, ← hmessage]
    exact congrArg some hrefused
  · rw [hsecond, hanswered]
    rfl

end Renderer
end SourceWindow
