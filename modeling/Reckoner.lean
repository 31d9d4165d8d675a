import Reckoner.Main
import Reckoner.Proofs.Api.Updates
import Reckoner.Proofs.CommandLine.Lines
import Reckoner.Proofs.Formula.Pricing
import Reckoner.Proofs.Formula.Progress
import Reckoner.Proofs.Formula.Rejections
import Reckoner.Proofs.Formula.Rendering
import Reckoner.Proofs.Formula.Totals
import Reckoner.Proofs.Service.Answers
import Reckoner.Proofs.Service.Leftovers
import Reckoner.Proofs.Service.Occupancy
import Reckoner.Proofs.Service.Recovery
import Reckoner.Proofs.Service.Restart
import Reckoner.Proofs.Settings.Overlay
import Reckoner.Proofs.Store.Queries
import Reckoner.Proofs.Store.RoundTrip
import Reckoner.Service.Summary
import Reckoner.Settings.Json
