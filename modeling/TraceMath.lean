import TraceMath.Chain
import TraceMath.Cli.Run
import TraceMath.Main
import TraceMath.Proofs.Engine
import TraceMath.Proofs.Routes
import TraceMath.Proofs.CodeModule.Rerun
import TraceMath.Proofs.Faults
import TraceMath.Proofs.Features
import TraceMath.Proofs.Binary64.Rounding
import TraceMath.Proofs.Cli.Operands
import TraceMath.Proofs.Cli.RoundTrip
import TraceMath.Proofs.Cli.Remainder
import TraceMath.Proofs.Power.Exact
import TraceMath.Proofs.Power.Monotone
import TraceMath.Proofs.Power.Error
import TraceMath.Proofs.Power.PowersOfTwo
import TraceMath.Proofs.Names
import TraceMath.Proofs.IntegralChains
import TraceMath.Proofs.Power.Factors
import TraceMath.Proofs.Fallbacks
import TraceMath.Proofs.SquareRoot
import TraceMath.Proofs.Power.Loops
