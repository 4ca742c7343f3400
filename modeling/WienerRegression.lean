import WienerRegression.CheckLog
import WienerRegression.Fixture
import WienerRegression.Magnitude
import WienerRegression.Proofs.Footprint
import WienerRegression.Storage.Session
import WienerRegression.Proofs.ReferenceMethod
import WienerRegression.Proofs.SpecializedMethod
import WienerRegression.Proofs.NormalEquations
import WienerRegression.Proofs.Runs
import WienerRegression.Proofs.SampleBounds
import WienerRegression.Proofs.Verdicts
import WienerRegression.Proofs.Magnitudes
import WienerRegression.Proofs.Additions
import WienerRegression.Proofs.Intermediates
import WienerRegression.Proofs.SparseScans
import WienerRegression.Proofs.SessionHistories
import WienerRegression.Proofs.SymmetricMatrices
import WienerRegression.Proofs.LeastSquares
import WienerRegression.Proofs.SemidefiniteMatrices
import WienerRegression.Proofs.LayoutIndependence
import WienerRegression.Proofs.NestedWindows
import WienerRegression.Proofs.WidenedSamples
import WienerRegression.Proofs.FixtureUnits
import WienerRegression.Proofs.ScannedPixels
import WienerRegression.Proofs.BrightnessShifts
import WienerRegression.Proofs.CentreTap
import WienerRegression.Proofs.DepthScales
import WienerRegression.Proofs.UniformContent
import WienerRegression.Proofs.ScanCalls
import WienerRegression.Proofs.AveragedSamples
import WienerRegression.Proofs.RowAccumulator
import WienerRegression.Proofs.TransposedUnits
import WienerRegression.Proofs.BoundWords
import WienerRegression.Proofs.GeneratorSteps
import WienerRegression.Proofs.GeneratorPeriod
import WienerRegression.Proofs.FixtureFills
import WienerRegression.Proofs.CheckHistories
import WienerRegression.Proofs.TransposeComparison
import WienerRegression.Proofs.PatchViews
