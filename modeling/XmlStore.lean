import XmlStore.Cursor
import XmlStore.Database.Addition
import XmlStore.Database.Basic
import XmlStore.Database.Path
import XmlStore.Evaluation
import XmlStore.Event
import XmlStore.Expr.Basic
import XmlStore.Expr.Compile
import XmlStore.Expr.Listing
import XmlStore.Expr.Opening
import XmlStore.Fault
import XmlStore.Host.Call
import XmlStore.Host.Decode
import XmlStore.Host.Hosted
import XmlStore.Host.Term
import XmlStore.Lookup
import XmlStore.Node
import XmlStore.Options
import XmlStore.Proofs.AdditionHistory
import XmlStore.Proofs.AnswerOrder
import XmlStore.Proofs.Batches
import XmlStore.Proofs.Building
import XmlStore.Proofs.Cancellation
import XmlStore.Proofs.CancelledContexts
import XmlStore.Proofs.CheckedEntries
import XmlStore.Proofs.Combining
import XmlStore.Proofs.CompiledForms
import XmlStore.Proofs.Compiling
import XmlStore.Proofs.CompleteReadings
import XmlStore.Proofs.Concatenation
import XmlStore.Proofs.DraftShape
import XmlStore.Proofs.Exhaustion
import XmlStore.Proofs.FirmScripts
import XmlStore.Proofs.Flattening
import XmlStore.Proofs.Following
import XmlStore.Proofs.FollowingExprs
import XmlStore.Proofs.FollowingSets
import XmlStore.Proofs.GrowingAnswers
import XmlStore.Proofs.Heard
import XmlStore.Proofs.IndexAnswers
import XmlStore.Proofs.IndexContents
import XmlStore.Proofs.IterableFlags
import XmlStore.Proofs.Iterating
import XmlStore.Proofs.Keeping
import XmlStore.Proofs.LazyEager
import XmlStore.Proofs.LookupCourses
import XmlStore.Proofs.LookupValues
import XmlStore.Proofs.MergeLaw
import XmlStore.Proofs.NameNumbers
import XmlStore.Proofs.Nesting
import XmlStore.Proofs.NoLostUpdate
import XmlStore.Proofs.NodeOrder
import XmlStore.Proofs.NormalPaths
import XmlStore.Proofs.Opening
import XmlStore.Proofs.OpeningFaults
import XmlStore.Proofs.OperandFaults
import XmlStore.Proofs.Operands
import XmlStore.Proofs.OptionTexts
import XmlStore.Proofs.PathSpellings
import XmlStore.Proofs.PlanLines
import XmlStore.Proofs.PlanShapes
import XmlStore.Proofs.Polling
import XmlStore.Proofs.PostingContents
import XmlStore.Proofs.Postings
import XmlStore.Proofs.Pulling
import XmlStore.Proofs.QueryAnswers
import XmlStore.Proofs.QueryMeaning
import XmlStore.Proofs.QueryVerdicts
import XmlStore.Proofs.Reading
import XmlStore.Proofs.Rounds
import XmlStore.Proofs.Scanning
import XmlStore.Proofs.Serving
import XmlStore.Proofs.ServingSets
import XmlStore.Proofs.Sessions
import XmlStore.Proofs.SetValues
import XmlStore.Proofs.Slots
import XmlStore.Proofs.Sparing
import XmlStore.Proofs.StoredPaths
import XmlStore.Proofs.Supplies
import XmlStore.Proofs.TableStructure
import XmlStore.Proofs.TableViews
import XmlStore.Proofs.TermSyntax
import XmlStore.Proofs.TextRoundTrip
import XmlStore.Proofs.Writers
import XmlStore.Proofs.WrittenTerms
import XmlStore.Query
import XmlStore.Reader
import XmlStore.Script.Basic
import XmlStore.Script.Merge
import XmlStore.SetOp
import XmlStore.Signals
import XmlStore.Snapshot
import XmlStore.Table.Basic
import XmlStore.Table.Draft
import XmlStore.Table.Fragment
import XmlStore.Table.Names
import XmlStore.Text.Blank
import XmlStore.Text.Printable
import XmlStore.Text.Quoted
import XmlStore.Text.Utf8
import XmlStore.ValueIndex.Basic
import XmlStore.ValueIndex.Postings
