import OpTransform.Igush.Vector
import OpTransform.Theory.Central
import OpTransform.Theory.Clients
import OpTransform.Theory.Confluence
import OpTransform.Theory.Order
import OpTransform.Theory.Safety
import OpTransform.Theory.Survival
import OpTransform.Theory.Turns
import OpTransform.Theory.TwoPaths
