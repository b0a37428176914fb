import HindleyMilner.VarSet
import HindleyMilner.OrderedMap
import HindleyMilner.Ty
import HindleyMilner.Subst
import HindleyMilner.TypeError
import HindleyMilner.Unification
import HindleyMilner.Supply
import HindleyMilner.Supply.Pool
import HindleyMilner.Scheme
import HindleyMilner.Context
import HindleyMilner.Term
import HindleyMilner.Forest
import HindleyMilner.Forest.Unification
import HindleyMilner.Log.Level
import HindleyMilner.Log.Event
import HindleyMilner.Log.Logger
import HindleyMilner.Session
import HindleyMilner.Inference.Substituting
import HindleyMilner.Inference.Linking
import HindleyMilner.Inference.Principal
import HindleyMilner.Settings
import HindleyMilner.Settings.Space
import HindleyMilner.Settings.Word
import HindleyMilner.Settings.Numeral
import HindleyMilner.Settings.Quotation
import HindleyMilner.Settings.Span
import HindleyMilner.Settings.Attribute
import HindleyMilner.Settings.Value
import HindleyMilner.Settings.Reader
import HindleyMilner.Settings.Override
import HindleyMilner.Settings.File
import HindleyMilner.Engine
import HindleyMilner.Proofs.Substitution
import HindleyMilner.Proofs.Unification
import HindleyMilner.Proofs.Drawing
import HindleyMilner.Proofs.Runs
import HindleyMilner.Proofs.Hygiene
import HindleyMilner.Proofs.Typing
import HindleyMilner.Proofs.Substituting.Footprint
import HindleyMilner.Proofs.Substituting.Soundness
import HindleyMilner.Proofs.Substituting.Completeness
import HindleyMilner.Proofs.Forest.Resolution
import HindleyMilner.Proofs.Forest.Refinement
import HindleyMilner.Proofs.Canonical
import HindleyMilner.Proofs.Agreement.Reading
import HindleyMilner.Proofs.Agreement.Schemes
import HindleyMilner.Proofs.Agreement.Lockstep
import HindleyMilner.Proofs.Instantiation
import HindleyMilner.Proofs.Counting
import HindleyMilner.Proofs.Renaming
import HindleyMilner.Proofs.Agreement.Principal
import HindleyMilner.Proofs.Linking.Soundness
import HindleyMilner.Proofs.Forest.Course
import HindleyMilner.Proofs.Forest.Invariant
import HindleyMilner.Proofs.Linking.Footprint
import HindleyMilner.Proofs.Forest.Overlay
import HindleyMilner.Proofs.Freshness
import HindleyMilner.Proofs.Linking.Isolation
import HindleyMilner.Proofs.Substituting.Relevance
import HindleyMilner.Proofs.Agreement.Relevance
import HindleyMilner.Proofs.Forest.Order
import HindleyMilner.Proofs.Reservation
import HindleyMilner.Proofs.Linking.Relevance
import HindleyMilner.Proofs.Alpha.Terms
import HindleyMilner.Proofs.Alpha.Runs
import HindleyMilner.Proofs.Replacement
import HindleyMilner.Proofs.Substituting.Expansion
import HindleyMilner.Proofs.Sharing
import HindleyMilner.Proofs.Substituting.Solved
import HindleyMilner.Proofs.Blame
import HindleyMilner.Proofs.Forest.Termination
import HindleyMilner.Proofs.Termination
import HindleyMilner.Proofs.Symmetry
import HindleyMilner.Proofs.Numbering
import HindleyMilner.Proofs.Generalization
import HindleyMilner.Proofs.Overflow
import HindleyMilner.Proofs.Text.Legible
import HindleyMilner.Proofs.Text.Types
import HindleyMilner.Proofs.Text.Terms
import HindleyMilner.Proofs.Linking.Generalization
import HindleyMilner.Proofs.Settings.Tokens
import HindleyMilner.Proofs.Settings.RoundTrip
import HindleyMilner.Forest.Registry
import HindleyMilner.Proofs.Forest.Registry
import HindleyMilner.Proofs.Handing
