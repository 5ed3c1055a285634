import Annealing.Problem.Dense
import Annealing.Proofs.Anneal.Acceptance
import Annealing.Proofs.Anneal.Accesses
import Annealing.Proofs.Anneal.Balance
import Annealing.Proofs.Anneal.Cancellation
import Annealing.Proofs.Anneal.Commuting
import Annealing.Proofs.Anneal.Course
import Annealing.Proofs.Anneal.Draws
import Annealing.Proofs.Anneal.Landscape
import Annealing.Proofs.Anneal.Reports
import Annealing.Proofs.Anneal.Scaling
import Annealing.Proofs.Anneal.Traced
import Annealing.Proofs.Decimal.Factors
import Annealing.Proofs.Decimal.Overflow
import Annealing.Proofs.Delivery.Release
import Annealing.Proofs.Graph.Accumulation
import Annealing.Proofs.Graph.Finite
import Annealing.Proofs.Graph.Lookup
import Annealing.Proofs.Graph.Matrix
import Annealing.Proofs.Graph.Polynomial
import Annealing.Proofs.Graph.QuadraticForm
import Annealing.Proofs.Params.ClosedForm
import Annealing.Proofs.Params.Entries
import Annealing.Proofs.Params.Halting
import Annealing.Proofs.Params.Restated
import Annealing.Proofs.Params.StepBound
import Annealing.Proofs.Problem.Exact
import Annealing.Proofs.Problem.Grammar
import Annealing.Proofs.Session.Energies
import Annealing.Proofs.Session.Faults
import Annealing.Proofs.Session.History
import Annealing.Proofs.Session.Reads
import Annealing.Proofs.Session.Refusals
import Annealing.Proofs.Session.Renaming
import Annealing.Proofs.Session.SingleRead
import Annealing.Random.Twister
import Annealing.Session
