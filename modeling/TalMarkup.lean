import TalMarkup.Text.LineIndex
import TalMarkup.Tree.Query
import TalMarkup.Tree.Walk
import TalMarkup.Template.Read
import TalMarkup.Proofs.Spelling
import TalMarkup.Proofs.Writing
import TalMarkup.Proofs.Verdict
import TalMarkup.Proofs.Scoping
import TalMarkup.Proofs.LineLookup
import TalMarkup.Proofs.Locations
import TalMarkup.Proofs.Qualifiers
import TalMarkup.Proofs.Renaming
import TalMarkup.Proofs.Joining
import TalMarkup.Proofs.Stopping
import TalMarkup.Proofs.StrayClosing
import TalMarkup.Proofs.Colouring
import TalMarkup.Proofs.Identity
import TalMarkup.Proofs.Shape
import TalMarkup.Proofs.BlockElements
import TalMarkup.Proofs.BlankSources
import TalMarkup.Proofs.BindingOrder
import TalMarkup.Proofs.KeptNames
import TalMarkup.Proofs.DocumentStages
import TalMarkup.Proofs.OpenSubset
import TalMarkup.Proofs.LineCounting
import TalMarkup.Proofs.Declarations
import TalMarkup.Proofs.SettingAttributes
import TalMarkup.Proofs.FileReading
import TalMarkup.Proofs.DocumentOrder
import TalMarkup.Proofs.InsertionOrder
import TalMarkup.Proofs.MessageLines
