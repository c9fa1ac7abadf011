import Elvis.Proofs.Shell.Assignments
import Elvis.Script.Search

/-!
# Statements of the script

What a statement does to the variables, and that a shell that runs its lines does the same.
-/

namespace Elvis.Script

open Shell Byte

/-! ## What pieces and statements stand for -/

def Piece.expansion (r : Runtime) (env : Env) : Piece → Bytes
  | text s => s
  | value name => env name
  | urlEscaped name => r.urlEscape (env name)
  | withoutAmpersand name => Shell.withoutAmpersand (env name)
  | orElse name fallback => Shell.orElse (env name) fallback

/-- The names are names of variables, and the rest of the text stands for itself. -/
def Piece.Readable : Piece → Prop
  | text s => ∀ b ∈ s, isPlain b
  | value name | urlEscaped name | withoutAmpersand name => isName name
  | orElse name fallback => isName name ∧ ∀ b ∈ fallback, isPlainInBraces b

namespace Statement

/-- The variables after the assignment. -/
def assigned (r : Runtime) (target : Bytes) (word : List Piece) (env : Env) : Env :=
  Function.update env target (word.flatMap (·.expansion r env))

/-- The variables after the statement. A loop assigns once for each item. -/
def effect (r : Runtime) (env : Env) : Statement → Env
  | clear target => Function.update env target []
  | assign target word => assigned r target word env
  | forEachItem listVariable target word =>
      (r.items listVariable).foldl
        (fun env item => assigned r target word (Function.update env "_sr_elem" item)) env

def Readable : Statement → Prop
  | clear target => isName target
  | assign target word => isName target ∧ ∀ p ∈ word, p.Readable
  | forEachItem listVariable target word =>
      isName listVariable ∧ isName target ∧ ∀ p ∈ word, p.Readable

/-- The variables that the statement may change. -/
def targets : Statement → List Bytes
  | clear target | assign target _ => [target]
  | forEachItem _ target _ => [target, "_sr_elem"]

end Statement

variable {r : Runtime} {env : Env} {name rest : Bytes}

/-! ## Reading words -/

/-- A piece is expanded, whatever text follows it. -/
theorem expand_render {p : Piece} (h : p.Readable) :
    expand r env (p.render ++ rest) = (expand r env rest).map (p.expansion r env ++ ·) := by
  cases p with
  | text s => exact expand_text h
  | value name =>
    have htext : (Piece.value name).render ++ rest =
        dollar :: ("\x7b" ++ (name ++ ("\x7d" ++ rest))) := by
      simp only [Piece.render, List.append_assoc]
      rfl
    rw [htext]
    exact expand_dollar (expandDollar_braces h rfl expandBraces_value)
  | urlEscaped name =>
    have htext : (Piece.urlEscaped name).render ++ rest =
        dollar :: ("(w3_url_escape \"$" ++ (name ++ ("\")" ++ rest))) := by
      simp only [Piece.render, List.append_assoc]
      rfl
    rw [htext]
    exact expand_dollar (expandDollar_urlEscape h)
  | withoutAmpersand name =>
    have htext : (Piece.withoutAmpersand name).render ++ rest =
        dollar :: ("\x7b" ++ (name ++ ("#&\x7d" ++ rest))) := by
      simp only [Piece.render, List.append_assoc]
      rfl
    rw [htext]
    exact expand_dollar (expandDollar_braces h rfl expandBraces_withoutAmpersand)
  | orElse name fallback =>
    obtain ⟨hname, hfallback⟩ := h
    have htext : (Piece.orElse name fallback).render ++ rest =
        dollar :: ("\x7b" ++ (name ++ (":-" ++ (fallback ++ ("\x7d" ++ rest))))) := by
      simp only [Piece.render, List.append_assoc]
      rfl
    rw [htext]
    exact expand_dollar (expandDollar_braces hname rfl (expandBraces_orElse hfallback))

theorem expand_word {word : List Piece} (h : ∀ p ∈ word, p.Readable) :
    expand r env (word.flatMap Piece.render ++ "\"") =
      some (word.flatMap (·.expansion r env)) := by
  induction word with
  | nil =>
    show expand r env [doubleQuote] = some []
    rw [expand, if_pos rfl, if_pos rfl]
  | cons p word ih =>
    obtain ⟨hp, hword⟩ := List.forall_mem_cons.mp h
    rw [List.flatMap_cons, List.append_assoc, expand_render hp, ih hword]
    rfl

/-! ## Running lines -/

variable {target listVariable : Bytes} {word : List Piece}

theorem assign_clear (h : isName target) :
    Shell.assign r env (target ++ "=") = some (Function.update env target []) := by
  have hname : readName (target ++ "=") = some (target, [equals]) := readName_append h rfl
  unfold Shell.assign
  rw [hname]
  rfl

theorem assign_assignment (h : isName target) (hword : ∀ p ∈ word, p.Readable) :
    Shell.assign r env (Statement.assignment target word) =
      some (Statement.assigned r target word env) := by
  have htext : Statement.assignment target word =
      target ++ ("=" ++ ("\"" ++ (word.flatMap Piece.render ++ "\""))) := by
    unfold Statement.assignment
    simp only [List.append_assoc]
    rfl
  have hname : readName (target ++ ("=" ++ ("\"" ++ (word.flatMap Piece.render ++ "\"")))) =
      some (target, "=" ++ ("\"" ++ (word.flatMap Piece.render ++ "\""))) :=
    readName_append h rfl
  have hquoted : ("\"" ++ (word.flatMap Piece.render ++ "\"") : Bytes) ≠ [] :=
    List.cons_ne_nil _ _
  unfold Shell.assign
  simp only [htext, hname, Bytes.dropPrefix?_append, if_neg hquoted, Option.bind_eq_bind,
    Option.bind_some, expand_word hword]
  rfl

/-- The body of a loop is kept without its indentation. -/
theorem run_body {body before : List Bytes}
    (h : ∀ line ∈ body, line.dropWhile (· = space) = line) :
    run r (body.map indent) ⟨.inLoop name before, env⟩ =
      some ⟨.inLoop name (before ++ body), env⟩ := by
  induction body generalizing before with
  | nil => simp [run]
  | cons line body ih =>
    obtain ⟨hline, hbody⟩ := List.forall_mem_cons.mp h
    have hdone : indent line ≠ "done" := fun heq => absurd (List.cons.inj heq).1 (by decide)
    have hindent : (indent line).dropWhile (· = space) = line := hline
    have hstep : step r ⟨.inLoop name before, env⟩ (indent line) =
        some ⟨.inLoop name (before ++ [line]), env⟩ := by
      unfold step
      dsimp only
      rw [if_neg hdone, hindent]
    rw [List.map_cons, run_cons, hstep, Option.bind_some, ih hbody, List.append_assoc,
      List.singleton_append]

theorem run_forEachItem {body : List Bytes} (hname : isName listVariable)
    (h : ∀ line ∈ body, line.dropWhile (· = space) = line) :
    run r (forEachItem listVariable body) ⟨.outside, env⟩ =
      (runLoop r body env (r.items listVariable)).map (⟨.outside, ·⟩) := by
  have hloop : loopVariable? ("for _sr_elem in $" ++ listVariable ++ "; do") =
      some listVariable := by
    unfold loopVariable?
    rw [List.append_assoc, Bytes.between?_append]
    exact if_pos hname
  have hopening : run r ["_sr_enter_list_context", "for _sr_elem in $" ++ listVariable ++ "; do"]
      ⟨.outside, env⟩ = some ⟨.inLoop listVariable [], env⟩ := by
    have henter : step r ⟨.outside, env⟩ "_sr_enter_list_context" = some ⟨.inList, env⟩ := rfl
    have hfor : step r ⟨.inList, env⟩ ("for _sr_elem in $" ++ listVariable ++ "; do") =
        some ⟨.inLoop listVariable [], env⟩ := by
      unfold step
      dsimp only
      rw [hloop]
      rfl
    rw [run_cons, henter, Option.bind_some, run_cons, hfor]
    rfl
  have hclosing (state : Env) : run r ["done", "_sr_leave_list_context"]
      ⟨.inLoop listVariable body, state⟩ =
        (runLoop r body state (r.items listVariable)).map (⟨.outside, ·⟩) := by
    have hdone : step r ⟨.inLoop listVariable body, state⟩ "done" =
        (runLoop r body state (r.items listVariable)).map (⟨.inList, ·⟩) := rfl
    have hleave (env : Env) : run r ["_sr_leave_list_context"] ⟨.inList, env⟩ =
        some ⟨.outside, env⟩ := rfl
    rw [run_cons, hdone]
    cases runLoop r body state (r.items listVariable) with
    | none => rfl
    | some env => exact hleave env
  unfold forEachItem
  rw [run_append, run_append, hopening, Option.bind_some, run_body h, List.nil_append,
    Option.bind_some, hclosing]

theorem runLoop_assignment (h : isName target) (hword : ∀ p ∈ word, p.Readable)
    (items : List Bytes) :
    runLoop r [Statement.assignment target word] env items =
      some (items.foldl (fun env item =>
        Statement.assigned r target word (Function.update env "_sr_elem" item)) env) := by
  induction items generalizing env with
  | nil => rfl
  | cons item items ih =>
    show (Option.bind ((Shell.assign r _ _).bind some) _) = _
    rw [assign_assignment h hword]
    exact ih

/-- The name of a variable does not start with a space. -/
theorem dropWhile_space_assignment (h : isName target) :
    (Statement.assignment target word).dropWhile (· = space) =
      Statement.assignment target word := by
  cases target with
  | nil => cases h
  | cons b rest =>
    have hspace : b ≠ space := by
      rintro rfl
      cases h
    show List.dropWhile _ (b :: _) = b :: _
    rw [List.dropWhile_cons_of_neg (by simpa using hspace)]

/-- A shell that runs the lines of a statement does what the statement says. -/
theorem run_lines {s : Statement} (h : s.Readable) :
    run r s.lines ⟨.outside, env⟩ = some ⟨.outside, s.effect r env⟩ := by
  cases s with
  | clear target =>
    show (step r _ _).bind some = _
    rw [step_of_assign (assign_clear h)]
    rfl
  | assign target word =>
    show (step r _ _).bind some = _
    rw [step_of_assign (assign_assignment h.1 h.2)]
    rfl
  | forEachItem listVariable target word =>
    obtain ⟨hlist, htarget, hword⟩ := h
    have hbody : ∀ line ∈ [Statement.assignment target word],
        line.dropWhile (· = space) = line :=
      List.forall_mem_singleton.mpr (dropWhile_space_assignment htarget)
    unfold Statement.lines
    rw [run_forEachItem hlist hbody, runLoop_assignment htarget hword]
    rfl

theorem run_statements {statements : List Statement} (h : ∀ s ∈ statements, s.Readable) :
    run r (statements.flatMap Statement.lines) ⟨.outside, env⟩ =
      some ⟨.outside, statements.foldl (Statement.effect r) env⟩ := by
  induction statements generalizing env with
  | nil => rfl
  | cons s statements ih =>
    obtain ⟨hs, hstatements⟩ := List.forall_mem_cons.mp h
    rw [List.flatMap_cons, run_append, run_lines hs, Option.bind_some, ih hstatements]
    rfl

/-! ## What statements leave alone -/

theorem assigned_of_ne {x : Bytes} (h : x ≠ target) :
    Statement.assigned r target word env x = env x :=
  Function.update_of_ne h _ _

theorem effect_of_not_mem_targets {s : Statement} {x : Bytes} (h : x ∉ s.targets) :
    s.effect r env x = env x := by
  cases s with
  | clear target => exact Function.update_of_ne (List.ne_of_not_mem_cons h) _ _
  | assign target word => exact assigned_of_ne (List.ne_of_not_mem_cons h)
  | forEachItem listVariable target word =>
    simp only [Statement.targets, List.mem_cons, List.not_mem_nil, or_false, not_or] at h
    unfold Statement.effect
    dsimp only
    induction r.items listVariable generalizing env with
    | nil => rfl
    | cons item items ih =>
      rw [List.foldl_cons, ih, assigned_of_ne h.1, Function.update_of_ne h.2]

theorem effects_of_not_mem_targets {statements : List Statement} {x : Bytes}
    (h : ∀ s ∈ statements, x ∉ s.targets) :
    statements.foldl (Statement.effect r) env x = env x := by
  induction statements generalizing env with
  | nil => rfl
  | cons s statements ih =>
    obtain ⟨hs, hstatements⟩ := List.forall_mem_cons.mp h
    rw [List.foldl_cons, ih hstatements, effect_of_not_mem_targets hs]

end Elvis.Script
