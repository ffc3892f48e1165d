import AugLag.Scalar.Basic

/-! Settings of the solver. Every setting has a name, a kind of value and a default. -/
namespace AugLag

/-- How the Newton systems are solved. An unknown method is treated as `auto` where it is not refused. -/
inductive Method
  | auto
  | kkt
  | schur
  | unknown (name : String)
deriving DecidableEq, Repr

namespace Method

def ofString : String → Method
  | "auto" => .auto
  | "kkt" => .kkt
  | "schur" => .schur
  | name => .unknown name

def toString : Method → String
  | .auto => "auto"
  | .kkt => "kkt"
  | .schur => "schur"
  | .unknown name => name

end Method

structure Settings (T : Type) where
  /-- The largest number of Newton iterations over all subproblems. -/
  maxIter : Nat
  /-- The largest number of Newton iterations of one subproblem. -/
  innerMaxIter : Nat
  /-- The largest number of multiplier updates. -/
  maxOuterIter : Nat
  /-- The longest time of one solve, in seconds. -/
  timeLimit : Float
  /-- The absolute tolerance at which a problem counts as solved. -/
  epsAbs : T
  /-- The relative tolerance at which a problem counts as solved. -/
  epsRel : T
  /-- The absolute tolerance of the first subproblem. -/
  epsAbsIn : T
  /-- The relative tolerance of the first subproblem. -/
  epsRelIn : T
  /-- The factor on the tolerances from one subproblem to the next. -/
  toleranceShrink : T
  /-- The tolerance of certificates of primal infeasibility. -/
  epsPrimInf : T
  /-- The tolerance of certificates of dual infeasibility. -/
  epsDualInf : T
  /-- The absolute tolerance once a limit is hit. -/
  reducedEpsAbs : T
  /-- The relative tolerance once a limit is hit. -/
  reducedEpsRel : T
  /-- The tolerance of primal certificates once a limit is hit. -/
  reducedEpsPrimInf : T
  /-- The tolerance of dual certificates once a limit is hit. -/
  reducedEpsDualInf : T
  /-- The first penalty of every constraint. -/
  initialPenalty : T
  /-- The largest growth of a penalty in one step. -/
  penaltyGrowth : T
  /-- A penalty grows unless the violation of its row shrank to this ratio. -/
  penaltyProgressRatio : T
  /-- The largest penalty. -/
  maxPenalty : T
  /-- Whether the proximal weight starts above its floor. -/
  proximalEnable : Bool
  /-- The first proximal weight. -/
  initialProximal : T
  /-- The factor on the proximal weight from one subproblem to the next. -/
  proximalShrink : T
  /-- The least proximal weight. -/
  minProximal : T
  /-- Whether the proximal weight is kept above the most negative curvature of the cost. -/
  nonconvex : Bool
  /-- How often a failed factorization is tried again. -/
  maxFactorizationRetries : Nat
  /-- The growth of the proximal weight before such a retry. -/
  proximalRegularizationFactor : T
  /-- Whether the problem is scaled. -/
  scalingEnable : Bool
  /-- The number of scaling rounds. -/
  scalingIter : Nat
  /-- Norms below this bound are not scaled. -/
  scalingMin : T
  /-- Norms above this bound are scaled as if they were equal to it. -/
  scalingMax : T
  /-- How the Newton systems are solved. -/
  factorizationMethod : Method
  /-- The largest number of rows changed by modifying the factors. -/
  maxRankUpdate : Nat
  /-- The same bound as a part of the number of variables and constraints. -/
  maxRankUpdateFraction : T
  /-- The number of modifications after which the factors are computed afresh. -/
  resetNewtonIter : Nat
  /-- The part of the predicted decrease that a step has to reach. -/
  linesearchArmijo : T
  /-- The factor on a step that is too long. -/
  linesearchBacktrackStep : T
  /-- The largest number of steps that are tried. -/
  linesearchMaxBacktrack : Nat
  /-- Whether a solve prints its progress. -/
  verbose : Bool
  /-- The number of multiplier updates from one printed row to the next. -/
  printInterval : Nat

def Settings.default {T : Type} [Scalar T] : Settings T where
  maxIter := 10000
  innerMaxIter := 100
  maxOuterIter := 1000
  timeLimit := 1.0 / 0.0
  epsAbs := 1e-4
  epsRel := 1e-4
  epsAbsIn := 1
  epsRelIn := 1
  toleranceShrink := 0.1
  epsPrimInf := 1e-5
  epsDualInf := 1e-5
  reducedEpsAbs := 1e-2
  reducedEpsRel := 1e-2
  reducedEpsPrimInf := 1e-3
  reducedEpsDualInf := 1e-3
  initialPenalty := 20.0
  penaltyGrowth := 100.0
  penaltyProgressRatio := 0.25
  maxPenalty := 1e9
  proximalEnable := true
  initialProximal := 0.1
  proximalShrink := 0.1
  minProximal := 1e-7
  nonconvex := false
  maxFactorizationRetries := 2
  proximalRegularizationFactor := 10.0
  scalingEnable := true
  scalingIter := 10
  scalingMin := 1e-4
  scalingMax := 1e4
  factorizationMethod := .auto
  maxRankUpdate := 160
  maxRankUpdateFraction := 0.1
  resetNewtonIter := 10000
  linesearchArmijo := 1e-4
  linesearchBacktrackStep := 0.5
  linesearchMaxBacktrack := 30
  verbose := true
  printInterval := 1

/-- The settings by name. -/
inductive Setting
  | maxIter
  | innerMaxIter
  | maxOuterIter
  | timeLimit
  | epsAbs
  | epsRel
  | epsAbsIn
  | epsRelIn
  | toleranceShrink
  | epsPrimInf
  | epsDualInf
  | reducedEpsAbs
  | reducedEpsRel
  | reducedEpsPrimInf
  | reducedEpsDualInf
  | initialPenalty
  | penaltyGrowth
  | penaltyProgressRatio
  | maxPenalty
  | proximalEnable
  | initialProximal
  | proximalShrink
  | minProximal
  | nonconvex
  | maxFactorizationRetries
  | proximalRegularizationFactor
  | scalingEnable
  | scalingIter
  | scalingMin
  | scalingMax
  | factorizationMethod
  | maxRankUpdate
  | maxRankUpdateFraction
  | resetNewtonIter
  | linesearchArmijo
  | linesearchBacktrackStep
  | linesearchMaxBacktrack
  | verbose
  | printInterval
deriving DecidableEq, Repr

/-- The kinds of values that settings have. -/
inductive SettingKind
  | count
  | real
  | time
  | flag
  | method
deriving DecidableEq, Repr

abbrev SettingKind.Value (T : Type) : SettingKind → Type
  | .count => Nat
  | .real => T
  | .time => Float
  | .flag => Bool
  | .method => Method

namespace Setting

/-- All settings in order of declaration. -/
def all : List Setting :=
  [.maxIter, .innerMaxIter, .maxOuterIter, .timeLimit, .epsAbs, .epsRel, .epsAbsIn, .epsRelIn,
   .toleranceShrink, .epsPrimInf, .epsDualInf, .reducedEpsAbs, .reducedEpsRel, .reducedEpsPrimInf,
   .reducedEpsDualInf, .initialPenalty, .penaltyGrowth, .penaltyProgressRatio, .maxPenalty,
   .proximalEnable, .initialProximal, .proximalShrink, .minProximal, .nonconvex,
   .maxFactorizationRetries, .proximalRegularizationFactor, .scalingEnable, .scalingIter,
   .scalingMin, .scalingMax, .factorizationMethod, .maxRankUpdate, .maxRankUpdateFraction,
   .resetNewtonIter, .linesearchArmijo, .linesearchBacktrackStep, .linesearchMaxBacktrack,
   .verbose, .printInterval]

def name : Setting → String
  | .maxIter => "max_iter"
  | .innerMaxIter => "inner_max_iter"
  | .maxOuterIter => "max_outer_iter"
  | .timeLimit => "time_limit"
  | .epsAbs => "eps_abs"
  | .epsRel => "eps_rel"
  | .epsAbsIn => "eps_abs_in"
  | .epsRelIn => "eps_rel_in"
  | .toleranceShrink => "tolerance_shrink"
  | .epsPrimInf => "eps_prim_inf"
  | .epsDualInf => "eps_dual_inf"
  | .reducedEpsAbs => "reduced_eps_abs"
  | .reducedEpsRel => "reduced_eps_rel"
  | .reducedEpsPrimInf => "reduced_eps_prim_inf"
  | .reducedEpsDualInf => "reduced_eps_dual_inf"
  | .initialPenalty => "initial_penalty"
  | .penaltyGrowth => "penalty_growth"
  | .penaltyProgressRatio => "penalty_progress_ratio"
  | .maxPenalty => "max_penalty"
  | .proximalEnable => "proximal_enable"
  | .initialProximal => "initial_proximal"
  | .proximalShrink => "proximal_shrink"
  | .minProximal => "min_proximal"
  | .nonconvex => "nonconvex"
  | .maxFactorizationRetries => "max_factorization_retries"
  | .proximalRegularizationFactor => "proximal_regularization_factor"
  | .scalingEnable => "scaling_enable"
  | .scalingIter => "scaling_iter"
  | .scalingMin => "scaling_min"
  | .scalingMax => "scaling_max"
  | .factorizationMethod => "factorization_method"
  | .maxRankUpdate => "max_rank_update"
  | .maxRankUpdateFraction => "max_rank_update_fraction"
  | .resetNewtonIter => "reset_newton_iter"
  | .linesearchArmijo => "linesearch_armijo"
  | .linesearchBacktrackStep => "linesearch_backtrack_step"
  | .linesearchMaxBacktrack => "linesearch_max_backtrack"
  | .verbose => "verbose"
  | .printInterval => "print_interval"

def ofName? (name : String) : Option Setting := all.find? fun s => s.name == name

def kind : Setting → SettingKind
  | .maxIter | .innerMaxIter | .maxOuterIter | .maxFactorizationRetries | .scalingIter
  | .maxRankUpdate | .resetNewtonIter | .linesearchMaxBacktrack | .printInterval => .count
  | .timeLimit => .time
  | .proximalEnable | .nonconvex | .scalingEnable | .verbose => .flag
  | .factorizationMethod => .method
  | _ => .real

end Setting

namespace Settings

variable {T : Type}

def get (c : Settings T) : (s : Setting) → s.kind.Value T
  | .maxIter => c.maxIter
  | .innerMaxIter => c.innerMaxIter
  | .maxOuterIter => c.maxOuterIter
  | .timeLimit => c.timeLimit
  | .epsAbs => c.epsAbs
  | .epsRel => c.epsRel
  | .epsAbsIn => c.epsAbsIn
  | .epsRelIn => c.epsRelIn
  | .toleranceShrink => c.toleranceShrink
  | .epsPrimInf => c.epsPrimInf
  | .epsDualInf => c.epsDualInf
  | .reducedEpsAbs => c.reducedEpsAbs
  | .reducedEpsRel => c.reducedEpsRel
  | .reducedEpsPrimInf => c.reducedEpsPrimInf
  | .reducedEpsDualInf => c.reducedEpsDualInf
  | .initialPenalty => c.initialPenalty
  | .penaltyGrowth => c.penaltyGrowth
  | .penaltyProgressRatio => c.penaltyProgressRatio
  | .maxPenalty => c.maxPenalty
  | .proximalEnable => c.proximalEnable
  | .initialProximal => c.initialProximal
  | .proximalShrink => c.proximalShrink
  | .minProximal => c.minProximal
  | .nonconvex => c.nonconvex
  | .maxFactorizationRetries => c.maxFactorizationRetries
  | .proximalRegularizationFactor => c.proximalRegularizationFactor
  | .scalingEnable => c.scalingEnable
  | .scalingIter => c.scalingIter
  | .scalingMin => c.scalingMin
  | .scalingMax => c.scalingMax
  | .factorizationMethod => c.factorizationMethod
  | .maxRankUpdate => c.maxRankUpdate
  | .maxRankUpdateFraction => c.maxRankUpdateFraction
  | .resetNewtonIter => c.resetNewtonIter
  | .linesearchArmijo => c.linesearchArmijo
  | .linesearchBacktrackStep => c.linesearchBacktrackStep
  | .linesearchMaxBacktrack => c.linesearchMaxBacktrack
  | .verbose => c.verbose
  | .printInterval => c.printInterval

def set (c : Settings T) : (s : Setting) → s.kind.Value T → Settings T
  | .maxIter, v => { c with maxIter := v }
  | .innerMaxIter, v => { c with innerMaxIter := v }
  | .maxOuterIter, v => { c with maxOuterIter := v }
  | .timeLimit, v => { c with timeLimit := v }
  | .epsAbs, v => { c with epsAbs := v }
  | .epsRel, v => { c with epsRel := v }
  | .epsAbsIn, v => { c with epsAbsIn := v }
  | .epsRelIn, v => { c with epsRelIn := v }
  | .toleranceShrink, v => { c with toleranceShrink := v }
  | .epsPrimInf, v => { c with epsPrimInf := v }
  | .epsDualInf, v => { c with epsDualInf := v }
  | .reducedEpsAbs, v => { c with reducedEpsAbs := v }
  | .reducedEpsRel, v => { c with reducedEpsRel := v }
  | .reducedEpsPrimInf, v => { c with reducedEpsPrimInf := v }
  | .reducedEpsDualInf, v => { c with reducedEpsDualInf := v }
  | .initialPenalty, v => { c with initialPenalty := v }
  | .penaltyGrowth, v => { c with penaltyGrowth := v }
  | .penaltyProgressRatio, v => { c with penaltyProgressRatio := v }
  | .maxPenalty, v => { c with maxPenalty := v }
  | .proximalEnable, v => { c with proximalEnable := v }
  | .initialProximal, v => { c with initialProximal := v }
  | .proximalShrink, v => { c with proximalShrink := v }
  | .minProximal, v => { c with minProximal := v }
  | .nonconvex, v => { c with nonconvex := v }
  | .maxFactorizationRetries, v => { c with maxFactorizationRetries := v }
  | .proximalRegularizationFactor, v => { c with proximalRegularizationFactor := v }
  | .scalingEnable, v => { c with scalingEnable := v }
  | .scalingIter, v => { c with scalingIter := v }
  | .scalingMin, v => { c with scalingMin := v }
  | .scalingMax, v => { c with scalingMax := v }
  | .factorizationMethod, v => { c with factorizationMethod := v }
  | .maxRankUpdate, v => { c with maxRankUpdate := v }
  | .maxRankUpdateFraction, v => { c with maxRankUpdateFraction := v }
  | .resetNewtonIter, v => { c with resetNewtonIter := v }
  | .linesearchArmijo, v => { c with linesearchArmijo := v }
  | .linesearchBacktrackStep, v => { c with linesearchBacktrackStep := v }
  | .linesearchMaxBacktrack, v => { c with linesearchMaxBacktrack := v }
  | .verbose, v => { c with verbose := v }
  | .printInterval, v => { c with printInterval := v }

end Settings
end AugLag
