import GroovySharp.Main
import GroovySharp.Proofs.ItemEnds
import GroovySharp.Proofs.ExpressionSpelling
import GroovySharp.Proofs.TripleStrings
import GroovySharp.Proofs.Reports
import GroovySharp.Proofs.LateWork
import GroovySharp.Proofs.BatchAccounts
import GroovySharp.Proofs.StoreTexts
import GroovySharp.Proofs.StoreRows
import GroovySharp.Proofs.SinkAccounts
import GroovySharp.Proofs.StatementEnds
import GroovySharp.Proofs.NestingInvariant
import GroovySharp.Proofs.SystemUse
import GroovySharp.Proofs.HoleEnds
import GroovySharp.Proofs.KeptConditions
import GroovySharp.Proofs.ReturnedValues
import GroovySharp.Proofs.StringLiterals
import GroovySharp.Proofs.MarkedText
import GroovySharp.Proofs.DirectoryListing
import GroovySharp.Proofs.ElseBranches
import GroovySharp.Proofs.Sniffing
import GroovySharp.Proofs.WholeText
import GroovySharp.Proofs.IntegerRange
