import TagML.Ty.Basic
import TagML.Ty.Pool
import TagML.Ty.Rewrite
import TagML.Ty.Unify
import TagML.Ty.Scheme
import TagML.Env
import TagML.Syntax.Expr
import TagML.Catalogue
import TagML.Context
import TagML.CheckError
import TagML.Infer
import TagML.Check
import TagML.Diagnostic
import TagML.Text.Ranges
import TagML.Text.GraphemeExtend
import TagML.Text.Printable
import TagML.Text.WhiteSpace
import TagML.Text.Quoted
import TagML.Decimal.Shortest
import TagML.Decimal.Read
import TagML.Syntax.Print
import TagML.Session
import TagML.Workbench
import TagML.SymbolTable
import TagML.EnvBench
import TagML.Handle
import TagML.Proofs.Pool.Graph
import TagML.Proofs.Pool.Invariant
import TagML.Proofs.Pool.Walk
import TagML.Proofs.Pool.Denote
import TagML.Proofs.Ty.Unify
import TagML.Proofs.Ty.Rewrite
import TagML.Proofs.Ty.Build
import TagML.Proofs.Ty.Extend
import TagML.Proofs.Infer.WellFormed
import TagML.Proofs.Catalogue
import TagML.Proofs.Reachable
import TagML.Proofs.MostGeneral
import TagML.Proofs.Ty.Footprint
import TagML.Proofs.Infer.Typing
import TagML.Proofs.Infer.Steps
import TagML.Proofs.Infer.Sound
import TagML.Proofs.Checker
import TagML.Proofs.Infer.Generality
import TagML.Proofs.Infer.Complete
import TagML.Proofs.Principal
import TagML.Proofs.Pool.Stable
import TagML.Proofs.Pool.Representation
import TagML.Proofs.Ty.Symmetric
import TagML.Proofs.Pool.Print
import TagML.Proofs.Frame
import TagML.Proofs.Embed.Pool
import TagML.Proofs.Embed.Unify
import TagML.Proofs.Embed.Rewrite
import TagML.Proofs.Embed.Scheme
import TagML.Proofs.Embed.Infer
import TagML.Proofs.Embed.Check
import TagML.Proofs.Embed.Skip
import TagML.Proofs.Ty.Termination
import TagML.Proofs.Ty.Instance
import TagML.Proofs.Catalogue.Tables
import TagML.Proofs.Infer.Calls
import TagML.Proofs.Infer.LetQuantified
import TagML.Proofs.Policy
import TagML.Proofs.Ty.Deep
import TagML.Proofs.Infer.Footprint
import TagML.Proofs.Pool.Variables
import TagML.Proofs.Ty.Reach
import TagML.Proofs.Pool.Later
import TagML.Proofs.Infer.Blame
import TagML.Proofs.EnvLaws
import TagML.Proofs.Interning
