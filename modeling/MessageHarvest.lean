import MessageHarvest.Collector
import MessageHarvest.Decimal.Notation
import MessageHarvest.Glob.Expansion
import MessageHarvest.Json.Write
import MessageHarvest.Main
import MessageHarvest.Message.Format
import MessageHarvest.Program
import MessageHarvest.Project
import MessageHarvest.Proofs.Collection
import MessageHarvest.Proofs.Collection.History
import MessageHarvest.Proofs.Glob.Parts
import MessageHarvest.Proofs.Project.Accounts
import MessageHarvest.Proofs.Project.Init
import MessageHarvest.Proofs.Project.Policies
import MessageHarvest.Proofs.Project.Setup
import MessageHarvest.Proofs.Project.Status
import MessageHarvest.Proofs.Project.Upward
import MessageHarvest.Proofs.Scan.Combined
import MessageHarvest.Proofs.Scan.Doublets
import MessageHarvest.Proofs.Scan.Literal
import MessageHarvest.Proofs.Scan.Lossy
import MessageHarvest.Proofs.Scan.Usable
import MessageHarvest.Proofs.Scan.Within
import MessageHarvest.Proofs.Traversal.Complete
import MessageHarvest.Proofs.Traversal.Play
import MessageHarvest.Proofs.Traversal.Policies
import MessageHarvest.Proofs.Traversal.Registration
import MessageHarvest.Proofs.Tree.Reload
import MessageHarvest.Report
import MessageHarvest.Scan
import MessageHarvest.Text.Quoted
import MessageHarvest.Tree.Format
import MessageHarvest.Proofs.Collection.Registries
import MessageHarvest.Proofs.Collection.Edits
import MessageHarvest.Proofs.Traversal.Recursion
import MessageHarvest.Proofs.Tree.Fields
import MessageHarvest.Proofs.Tree.Forms
import MessageHarvest.Proofs.Report.Json
import MessageHarvest.Proofs.Report.Colors
import MessageHarvest.Proofs.Project.Creation
