import CustomElement.Main
import CustomElement.Proofs.Markup.Assembly
import CustomElement.Proofs.Markup.Operations
import CustomElement.Proofs.Component.Strictness
import CustomElement.Proofs.Component.Escapes
import CustomElement.Proofs.Project.Targets
import CustomElement.Proofs.Script.Idempotence
import CustomElement.Proofs.Script.NonNull
import CustomElement.Proofs.Script.ConditionalTypes
import CustomElement.Proofs.Script.FaultPlaces
import CustomElement.Proofs.Script.EnumValues
import CustomElement.Proofs.Script.Reindenting
import CustomElement.Proofs.Component.Wiring
import CustomElement.Proofs.Script.EditEdges
import CustomElement.Proofs.Script.Parameters
import CustomElement.Proofs.Project.Discovery
