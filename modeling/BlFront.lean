import BlFront.Main
import BlFront.Proofs.Analysis.ArrayLiterals
import BlFront.Proofs.Analysis.Constructors
import BlFront.Proofs.Analysis.DirectChecks
import BlFront.Proofs.Analysis.Inheritance
import BlFront.Proofs.Analysis.Layout
import BlFront.Proofs.Analysis.MemberLookup
import BlFront.Proofs.Analysis.Phases
import BlFront.Proofs.Analysis.Places
import BlFront.Proofs.Analysis.Returning
import BlFront.Proofs.Analysis.Unreachable
import BlFront.Proofs.Reactor.LeastModel
import BlFront.Proofs.Reactor.Nesting
import BlFront.Proofs.Symbol.Joining
import BlFront.Proofs.Syntax.Printing
import BlFront.Proofs.Syntax.Recovery
import BlFront.Proofs.Syntax.Termination
import BlFront.Proofs.Token.Rendering
import BlFront.Syntax.Walk
import BlFront.Proofs.Analysis.Uninferred
import BlFront.Proofs.Reactor.Ending
import BlFront.Proofs.Syntax.Literals
import BlFront.Proofs.Syntax.Walks
