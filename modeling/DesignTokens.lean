import DesignTokens.Main
import DesignTokens.Proofs.Arrangement
import DesignTokens.Proofs.Containment
import DesignTokens.Proofs.LastWriter
import DesignTokens.Proofs.Parity
import DesignTokens.Proofs.Resolution
import DesignTokens.Proofs.Gate
import DesignTokens.Proofs.Commands
import DesignTokens.Proofs.Delivery
import DesignTokens.Proofs.Lifecycle
import DesignTokens.Proofs.Merging
import DesignTokens.Proofs.Overlaying
import DesignTokens.Proofs.Interchange
import DesignTokens.Proofs.Origins
import DesignTokens.Proofs.Traversal
import DesignTokens.Proofs.Expressions
import DesignTokens.Proofs.CamelLeaves
import DesignTokens.Proofs.CamelForm
import DesignTokens.Proofs.Rebuilding
import DesignTokens.Proofs.Retention
import DesignTokens.Proofs.Leniency
import DesignTokens.Proofs.Reordering
import DesignTokens.Proofs.Isolation
import DesignTokens.Proofs.Evaluating
import DesignTokens.Proofs.Following
import DesignTokens.Proofs.Blaming
import DesignTokens.Proofs.Escaping
import DesignTokens.Proofs.Decoding
import DesignTokens.Proofs.Manifests
import DesignTokens.Proofs.Binding
import DesignTokens.Proofs.Keeping
import DesignTokens.Proofs.ColorText
import DesignTokens.Proofs.Skipping
import DesignTokens.Proofs.Addressing
