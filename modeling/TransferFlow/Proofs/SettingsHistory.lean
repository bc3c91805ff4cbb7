import Mathlib.Data.List.Infix
import Mathlib.Data.List.Induction
import TransferFlow.Config

namespace TransferFlow

/-- What settings go through: the environment changes, a configuration or none is put in force, or the
one in force is asked for. -/
inductive SettingsStep where
  | change (env : Environment)
  | set (config : Option Config)
  | get
  deriving DecidableEq, Repr

/-- What the environment changes to. -/
def SettingsStep.environment? : SettingsStep → Option Environment
  | .change env => some env
  | _ => none

/-- The size limit is given, and it is no whole number. -/
def Environment.IsMalformed (env : Environment) : Prop :=
  ∃ text, env.maxFileSize = some text ∧ Text.integer? text.toList = none

/-- The environment that steps leave behind where it was `env` before: the last one that it changed to. -/
def Environment.behind (env : Environment) (steps : List SettingsStep) : Environment :=
  (steps.filterMap SettingsStep.environment?).getLast?.getD env

theorem Environment.behind_concat (env : Environment) (steps : List SettingsStep) (step : SettingsStep) :
    env.behind (steps ++ [step]) = step.environment?.getD (env.behind steps) := by
  cases step <;> simp [behind, SettingsStep.environment?]

theorem Config.ofEnvironment_eq_error (cwd : AbsolutePath) {env : Environment} :
    (∃ e, ofEnvironment cwd env = .error e) ↔ env.IsMalformed := by
  unfold ofEnvironment Environment.IsMalformed
  dsimp only
  split
  · rename_i missing
    simp [missing]
  · rename_i text given
    split
    · rename_i size reads
      simp [given, reads]
    · rename_i fails
      simp [given, fails]

namespace Settings

variable {cwd : AbsolutePath} {s : Settings} {a : ActiveConfig} {env : Environment}
variable {steps before after : List SettingsStep}

/-- The settings behind one more step. -/
def take (cwd : AbsolutePath) (s : Settings) : SettingsStep → Settings
  | .change env => { s with environment := env }
  | .set config => s.set config
  | .get => (s.get cwd).2

def run (cwd : AbsolutePath) (s : Settings) (steps : List SettingsStep) : Settings :=
  steps.foldl (take cwd) s

/-- What is answered to whoever asks for the configuration behind steps that start in `env`. -/
def answer (cwd : AbsolutePath) (env : Environment) (steps : List SettingsStep) : Except ConfigError ActiveConfig :=
  ((run cwd (initial env) steps).get cwd).1

/-- Whoever asked for the configuration during the steps `after` was given none. -/
def RefusedAll (cwd : AbsolutePath) (env : Environment) (before after : List SettingsStep) : Prop :=
  ∀ p, p ++ [.get] <+: after → ∃ e, answer cwd env (before ++ p) = .error e

theorem refusedAll_concat {step : SettingsStep} :
    RefusedAll cwd env before (after ++ [step]) ↔
      RefusedAll cwd env before after ∧ (step = .get → ∃ e, answer cwd env (before ++ after) = .error e) := by
  simp only [RefusedAll, List.prefix_concat_iff]
  constructor
  · intro refused
    refine ⟨fun p asked => refused p (.inr asked), ?_⟩
    rintro rfl
    exact refused after (.inl rfl)
  · rintro ⟨refused, last⟩ p (whole | asked)
    · obtain ⟨rfl, same⟩ := List.append_inj' whole rfl
      exact last (List.singleton_inj.mp same).symm
    · exact refused p asked

theorem run_append (xs ys : List SettingsStep) : run cwd s (xs ++ ys) = run cwd (run cwd s xs) ys :=
  List.foldl_append

theorem run_concat (steps : List SettingsStep) (step : SettingsStep) :
    run cwd s (steps ++ [step]) = take cwd (run cwd s steps) step :=
  run_append steps [step]

theorem get_of_active (active : s.active = some a) : s.get cwd = (.ok a, s) := by
  rw [get, active]

theorem get_of_error (inactive : s.active = none) {e : ConfigError}
    (failed : Config.ofEnvironment cwd s.environment = .error e) : s.get cwd = (.error e, s) := by
  rw [get, inactive]
  dsimp only
  rw [failed]

theorem get_of_ok (inactive : s.active = none) {c : Config}
    (described : Config.ofEnvironment cwd s.environment = .ok c) :
    s.get cwd = (.ok ⟨c, s.issued⟩, { s with active := some ⟨c, s.issued⟩, issued := s.issued + 1 }) := by
  rw [get, inactive]
  dsimp only
  rw [described]

theorem environment_take (s : Settings) (step : SettingsStep) :
    (take cwd s step).environment = step.environment?.getD s.environment := by
  cases step with
  | change env => rfl
  | set config => cases config <;> rfl
  | get =>
    cases active : s.active with
    | some a => rw [take, get_of_active active]; rfl
    | none =>
      cases described : Config.ofEnvironment cwd s.environment with
      | error e => rw [take, get_of_error active described]; rfl
      | ok c => rw [take, get_of_ok active described]; rfl

theorem environment_run (env : Environment) (steps : List SettingsStep) :
    (run cwd (initial env) steps).environment = env.behind steps := by
  induction steps using List.reverseRecOn with
  | nil => rfl
  | append_singleton steps step ih => rw [run_concat, environment_take, ih, Environment.behind_concat]

section Answers

/-- Behind steps where nothing is in force, the environment answers. -/
theorem answer_of_inactive (inactive : (run cwd (initial env) steps).active = none) :
    (answer cwd env steps).map ActiveConfig.config = Config.ofEnvironment cwd (env.behind steps) := by
  rw [answer]
  cases described : Config.ofEnvironment cwd (run cwd (initial env) steps).environment with
  | error e => rw [get_of_error inactive described, ← environment_run, described]; rfl
  | ok c => rw [get_of_ok inactive described, ← environment_run, described]; rfl

theorem answer_of_active (active : (run cwd (initial env) steps).active = some a) :
    answer cwd env steps = .ok a := by
  rw [answer, get_of_active active]

/-- Nothing is in force where an answer fails, and the environment is to blame. -/
theorem inactive_of_error {e : ConfigError} (failed : answer cwd env steps = .error e) :
    (run cwd (initial env) steps).active = none ∧ (env.behind steps).IsMalformed ∧
      run cwd (initial env) (steps ++ [.get]) = run cwd (initial env) steps := by
  cases active : (run cwd (initial env) steps).active with
  | some a => rw [answer_of_active active] at failed; cases failed
  | none =>
    have described := (answer_of_inactive active).symm
    rw [failed] at described
    refine ⟨rfl, (Config.ofEnvironment_eq_error cwd).mp ⟨e, described⟩, ?_⟩
    rw [← environment_run] at described
    rw [run_concat, take, get_of_error active described]

/-- Whoever is answered with a configuration puts it in force. -/
theorem active_of_ok (answered : answer cwd env steps = .ok a) :
    (run cwd (initial env) (steps ++ [.get])).active = some a := by
  rw [run_concat, take]
  rw [answer] at answered
  cases active : (run cwd (initial env) steps).active with
  | some a' =>
    rw [get_of_active active] at answered ⊢
    cases answered
    exact active
  | none =>
    cases described : Config.ofEnvironment cwd (run cwd (initial env) steps).environment with
    | error e => rw [get_of_error active described] at answered; cases answered
    | ok c =>
      rw [get_of_ok active described] at answered ⊢
      cases answered
      rfl

end Answers

section Periods

/-- What is in force stays in force until the next is set. -/
theorem active_run (kept : ∀ config, .set config ∉ steps) (active : s.active = some a) :
    (run cwd s steps).active = some a := by
  induction steps using List.reverseRecOn with
  | nil => exact active
  | append_singleton steps step ih =>
    have before := ih fun config member => kept config (List.mem_append_left [step] member)
    rw [run_concat]
    cases step with
    | change env => exact before
    | set config => exact absurd (List.mem_append_right steps List.mem_cons_self) (kept config)
    | get => rw [take, get_of_active before]; exact before

/-- Changes of the environment alone put nothing in force. -/
theorem inactive_run (changes : ∀ step ∈ steps, ∃ env', step = .change env') (inactive : s.active = none) :
    (run cwd s steps).active = none := by
  induction steps using List.reverseRecOn with
  | nil => exact inactive
  | append_singleton steps step ih =>
    obtain ⟨earlier, last⟩ := List.forall_mem_append.mp changes
    obtain ⟨env', rfl⟩ := last step List.mem_cons_self
    rw [run_concat]
    exact ih earlier

/-- Steps have a last set, or none is among them. -/
theorem exists_lastSet (steps : List SettingsStep) :
    ∃ before after, steps = before ++ after ∧ (∀ config, .set config ∉ after) ∧
      (before = [] ∨ ∃ earlier config, before = earlier ++ [.set config]) := by
  induction steps using List.reverseRecOn with
  | nil => exact ⟨[], [], rfl, nofun, .inl rfl⟩
  | append_singleton steps step ih =>
    by_cases sets : ∃ config, step = .set config
    · obtain ⟨config, rfl⟩ := sets
      exact ⟨_, [], (List.append_nil _).symm, nofun, .inr ⟨steps, config, rfl⟩⟩
    · obtain ⟨before, after, rfl, kept, last⟩ := ih
      refine ⟨before, after ++ [step], List.append_assoc before after [step], ?_, last⟩
      intro config member
      rcases List.mem_append.mp member with inside | same
      · exact kept config inside
      · exact sets ⟨config, (List.mem_singleton.mp same).symm⟩

/-- Where nothing is in force and nothing is set, there is a first to be answered with a configuration,
or no one has been. -/
theorem exists_firstAnswer (inactive : (run cwd (initial env) before).active = none)
    (kept : ∀ config, .set config ∉ after) :
    ∃ first, first <+: after ∧ RefusedAll cwd env before first ∧
      (run cwd (initial env) (before ++ first)).active = none ∧
      (first = after ∨ first ++ [.get] <+: after ∧ ∃ a, answer cwd env (before ++ first) = .ok a) := by
  induction after using List.reverseRecOn with
  | nil =>
    refine ⟨[], List.prefix_rfl, fun p asked => ?_, by rwa [List.append_nil], .inl rfl⟩
    exact absurd (List.prefix_nil.mp asked) (List.append_ne_nil_of_right_ne_nil p (List.cons_ne_nil _ _))
  | append_singleton after step ih =>
    have kept' : ∀ config, .set config ∉ after :=
      fun config member => kept config (List.mem_append_left [step] member)
    obtain ⟨first, within, refused, still, last⟩ := ih kept'
    rcases last with rfl | ⟨asked, answered⟩
    · cases step with
      | set config => exact absurd (List.mem_append_right first List.mem_cons_self) (kept config)
      | change env' =>
        refine ⟨_, List.prefix_rfl, refusedAll_concat.mpr ⟨refused, nofun⟩, ?_, .inl rfl⟩
        rw [← List.append_assoc, run_concat]
        exact still
      | get =>
        cases answered : answer cwd env (before ++ first) with
        | ok a =>
          exact ⟨first, within.trans (List.prefix_append first _), refused, still,
            .inr ⟨List.prefix_rfl, a, answered⟩⟩
        | error e =>
          obtain ⟨-, -, unchanged⟩ := inactive_of_error answered
          refine ⟨_, List.prefix_rfl, refusedAll_concat.mpr ⟨refused, fun _ => ⟨e, answered⟩⟩, ?_, .inl rfl⟩
          rw [← List.append_assoc, unchanged]
          exact still
    · have further : after <+: after ++ [step] := List.prefix_append after [step]
      exact ⟨first, within.trans further, refused, still, .inr ⟨asked.trans further, answered⟩⟩

end Periods

section Serials

theorem issued_take (cwd : AbsolutePath) (s : Settings) (step : SettingsStep) :
    s.issued ≤ (take cwd s step).issued := by
  cases step with
  | change env => exact Nat.le_refl _
  | set config => cases config <;> simp [take, set]
  | get =>
    cases active : s.active with
    | some a => rw [take, get_of_active active]
    | none =>
      cases described : Config.ofEnvironment cwd s.environment with
      | error e => rw [take, get_of_error active described]
      | ok c => rw [take, get_of_ok active described]; exact Nat.le_succ _

theorem issued_run (cwd : AbsolutePath) (s : Settings) (steps : List SettingsStep) :
    s.issued ≤ (run cwd s steps).issued := by
  induction steps using List.reverseRecOn with
  | nil => exact Nat.le_refl _
  | append_singleton steps step ih => rw [run_concat]; exact ih.trans (issued_take cwd _ step)

/-- No serial is given out before its turn. -/
theorem serial_lt_issued (active : (run cwd (initial env) steps).active = some a) :
    a.serial < (run cwd (initial env) steps).issued := by
  induction steps using List.reverseRecOn with
  | nil => cases active
  | append_singleton steps step ih =>
    rw [run_concat] at active ⊢
    cases step with
    | change env' => exact ih active
    | set config =>
      cases config with
      | none => cases active
      | some c => cases active; exact Nat.lt_succ_self _
    | get =>
      cases before : (run cwd (initial env) steps).active with
      | some a' =>
        rw [take, get_of_active before] at active ⊢
        exact ih active
      | none =>
        cases described : Config.ofEnvironment cwd (run cwd (initial env) steps).environment with
        | error e =>
          rw [take, get_of_error before described] at active
          rw [before] at active
          cases active
        | ok c =>
          rw [take, get_of_ok before described] at active ⊢
          cases active
          exact Nat.lt_succ_self _

/-- A configuration that the environment describes is none of those that were in force before. -/
theorem answer_new (inactive : (run cwd (initial env) steps).active = none) (asked : before ++ [.get] <+: steps)
    (answered : answer cwd env before = .ok a) : answer cwd env steps ≠ .ok a := by
  intro again
  obtain ⟨later, rfl⟩ := asked
  have issued := issued_run cwd (run cwd (initial env) (before ++ [.get])) later
  rw [← run_append] at issued
  have earlier := (serial_lt_issued (active_of_ok answered)).trans_le issued
  rw [answer] at again
  cases described : Config.ofEnvironment cwd (run cwd (initial env) (before ++ [.get] ++ later)).environment with
  | error e => rw [get_of_error inactive described] at again; cases again
  | ok c =>
    rw [get_of_ok inactive described] at again
    cases again
    exact absurd earlier (Nat.lt_irrefl _)

end Serials

/-- Whoever asks for the configuration behind any steps is answered by the last set among them. If it
put one in force, that one is answered ever since. If there is none, or it took the one in force back,
then the environment answers as it was when someone was first answered with success since, or as it is
now; and that configuration, which was in force at no time before, is answered ever since. A failure is
due to the environment and leaves nothing in force, so that after any changes the environment answers
again. -/
theorem answers_of_history (cwd : AbsolutePath) (env : Environment) (steps : List SettingsStep) :
    (∃ before after, steps = before ++ after ∧ (∀ config, .set config ∉ after) ∧
      ((∃ earlier c a, before = earlier ++ [.set (some c)] ∧ a.config = c ∧
          ∀ p, p <+: after → answer cwd env (before ++ p) = .ok a) ∨
        (before = [] ∨ ∃ earlier, before = earlier ++ [.set none]) ∧
          ∃ first, first <+: after ∧ RefusedAll cwd env before first ∧
            (answer cwd env (before ++ first)).map ActiveConfig.config =
              Config.ofEnvironment cwd (env.behind (before ++ first)) ∧
            (∀ p a, p ++ [.get] <+: before ++ first → answer cwd env p = .ok a →
              answer cwd env (before ++ first) ≠ .ok a) ∧
            (first = after ∨ first ++ [.get] <+: after ∧ ∃ a, answer cwd env (before ++ first) = .ok a ∧
              ∀ p, first ++ [.get] <+: p → p <+: after → answer cwd env (before ++ p) = .ok a))) ∧
    ∀ e, answer cwd env steps = .error e → (env.behind steps).IsMalformed ∧
      (run cwd (initial env) (steps ++ [.get])).active = none ∧
      ∀ later, (∀ step ∈ later, ∃ env', step = .change env') →
        (answer cwd env (steps ++ .get :: later)).map ActiveConfig.config =
            Config.ofEnvironment cwd (env.behind (steps ++ .get :: later)) ∧
          ((∃ e', answer cwd env (steps ++ .get :: later) = .error e') ↔
            (env.behind (steps ++ .get :: later)).IsMalformed) := by
  refine ⟨?_, ?_⟩
  · obtain ⟨before, after, rfl, kept, last⟩ := exists_lastSet steps
    have stays {p q : List SettingsStep} (within : p <+: after) (behind : q <+: p) {a : ActiveConfig}
        (active : (run cwd (initial env) (before ++ q)).active = some a) :
        answer cwd env (before ++ p) = .ok a := by
      obtain ⟨r, rfl⟩ := behind
      refine answer_of_active ?_
      rw [← List.append_assoc, run_append]
      exact active_run (fun config member => kept config (within.subset (List.mem_append_right q member))) active
    refine ⟨before, after, rfl, kept, ?_⟩
    by_cases given : ∃ earlier c, before = earlier ++ [.set (some c)]
    · obtain ⟨earlier, c, rfl⟩ := given
      refine .inl ⟨earlier, c, ⟨c, (run cwd (initial env) earlier).issued⟩, rfl, rfl, fun p within => ?_⟩
      refine stays within List.nil_prefix ?_
      rw [List.append_nil, run_concat]
      rfl
    · have reset : before = [] ∨ ∃ earlier, before = earlier ++ [.set none] := by
        rcases last with rfl | ⟨earlier, _ | c, rfl⟩
        · exact .inl rfl
        · exact .inr ⟨earlier, rfl⟩
        · exact absurd ⟨earlier, c, rfl⟩ given
      have inactive : (run cwd (initial env) before).active = none := by
        rcases reset with rfl | ⟨earlier, rfl⟩
        · rfl
        · rw [run_concat]; rfl
      obtain ⟨first, within, refused, still, first_or⟩ := exists_firstAnswer inactive kept
      refine .inr ⟨reset, first, within, refused, answer_of_inactive still, fun p a => answer_new still, ?_⟩
      refine first_or.imp_right fun ⟨asked, a, answered⟩ => ⟨asked, a, answered, fun p behind within => ?_⟩
      refine stays within behind ?_
      rw [← List.append_assoc]
      exact active_of_ok answered
  · intro e failed
    obtain ⟨inactive, malformed, unchanged⟩ := inactive_of_error failed
    refine ⟨malformed, by rw [unchanged]; exact inactive, fun later changes => ?_⟩
    have still : (run cwd (initial env) (steps ++ .get :: later)).active = none := by
      rw [List.append_cons, run_append, unchanged]
      exact inactive_run changes inactive
    have described := answer_of_inactive still
    refine ⟨described, ?_⟩
    rw [← Config.ofEnvironment_eq_error cwd, ← described]
    cases answer cwd env (steps ++ .get :: later) <;> simp [Except.map]

end Settings

end TransferFlow
