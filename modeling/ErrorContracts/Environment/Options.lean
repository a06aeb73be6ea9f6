/-!
# Options

How functions that report errors are recognised, and whether functions are visited callees first.
-/

namespace ErrorContracts

/-- The measurements of a called function that a classifier sees. -/
abbrev FeatureVector := List Float

/-- How the names of error-reporting functions are found. -/
inductive Classifier where
  | none
  | default
  | feature (accepts : FeatureVector → Bool)

inductive ClassifierFault where
  | noRule
  deriving DecidableEq

def ClassifierFault.message : ClassifierFault → String
  | noRule => "a feature classifier needs a classification function"

/-- The classifier by features for a rule. -/
def Classifier.byFeatures : Option (FeatureVector → Bool) → Except ClassifierFault Classifier
  | some accepts => .ok (.feature accepts)
  | .none => .error .noRule

structure Options where
  classifier : Classifier := .default
  calleesFirst : Bool := true

end ErrorContracts
