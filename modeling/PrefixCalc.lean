import PrefixCalc.Expr.Context
import PrefixCalc.Expr.Drawing
import PrefixCalc.Main
import PrefixCalc.Proofs.Accounts
import PrefixCalc.Proofs.Commands
import PrefixCalc.Proofs.Counting
import PrefixCalc.Proofs.Delivery
import PrefixCalc.Proofs.DoubleValues
import PrefixCalc.Proofs.FullInfix
import PrefixCalc.Proofs.IntegerValues
import PrefixCalc.Proofs.Lines
import PrefixCalc.Proofs.Memory
import PrefixCalc.Proofs.MinimalInfix
import PrefixCalc.Proofs.Printouts
import PrefixCalc.Proofs.Readings
import PrefixCalc.Proofs.Replacement
import PrefixCalc.Proofs.Reports
import PrefixCalc.Proofs.RoundTrip
import PrefixCalc.Proofs.Transcript
import PrefixCalc.Proofs.WholeFloats
import PrefixCalc.Session.Definitions
import PrefixCalc.Text.Brackets
import PrefixCalc.Workspace
import PrefixCalc.Proofs.Workspaces
import PrefixCalc.Proofs.Brackets
import PrefixCalc.Proofs.LeftAssociation
import PrefixCalc.Proofs.Drawings
import PrefixCalc.Proofs.TextIdentity
import PrefixCalc.Proofs.ReadingLog
import PrefixCalc.Proofs.TokenLanguage
import PrefixCalc.Proofs.EvaluationLog
import PrefixCalc.Proofs.SessionLog
import PrefixCalc.Proofs.RoundedDecimals
